import Mathlib.Order.UpperLower.Basic
import Mathlib.Order.WithBot

/-!
# Two cursors over an overlaid order

A sorted base is overlaid by a second sorted set: an element of the overlay either is live, and then
hides the base element at its place, or is a marker, and then deletes it.  What remains is the view.
It is read with two cursors, one over the overlay and one over the base, each standing on an element
or at the end `⊤`.  *Settling* the cursors moves the first over the markers to the next live
element and the second over every element the first one meets on its way.

* `Settled.isFirst_view`: the smaller of the settled cursors is the first element of the view,
  unless the overlay cursor was placed behind an element that hides or deletes something;
* `Settled.base_after`, `Settled.live_after`: where the other cursor stands then.

The order is arbitrary; the same statements hold for its dual, which is a walk in reverse.
-/

namespace WebKit

variable {L : Type*} [LinearOrder L]

/-- `p` is the first element of `S`, or `⊤` when `S` is empty. -/
structure IsFirst (S : Set L) (p : WithTop L) : Prop where
  mem : ∀ x : L, p = x → x ∈ S
  le : ∀ y ∈ S, p ≤ y

namespace IsFirst

variable {S S' : Set L} {p q : WithTop L}

theorem unique (hp : IsFirst S p) (hq : IsFirst S q) : p = q := by
  refine le_antisymm ?_ ?_
  · cases q with
    | top => exact le_top
    | coe y => exact hp.le y (hq.mem y rfl)
  · cases p with
    | top => exact le_top
    | coe x => exact hq.le x (hp.mem x rfl)

theorem congr (h : ∀ x, x ∈ S ↔ x ∈ S') (hp : IsFirst S p) : IsFirst S' p where
  mem x hx := (h x).mp (hp.mem x hx)
  le y hy := hp.le y ((h y).mpr hy)

theorem coe_iff {x : L} : IsFirst S (x : WithTop L) ↔ x ∈ S ∧ ∀ y ∈ S, x ≤ y := by
  refine ⟨fun h => ⟨h.mem x rfl, fun y hy => WithTop.coe_le_coe.mp (h.le y hy)⟩, fun h => ⟨?_, ?_⟩⟩
  · intro y hy
    rw [← WithTop.coe_injective hy]
    exact h.1
  · exact fun y hy => WithTop.coe_le_coe.mpr (h.2 y hy)

theorem top_iff : IsFirst S ⊤ ↔ ∀ y, y ∉ S := by
  refine ⟨fun h y hy => ?_, fun h => ⟨fun x hx => absurd hx (by simp), fun y hy => absurd hy (h y)⟩⟩
  exact absurd (h.le y hy) (by simp)

end IsFirst

/-- A base and what lies over it.  An element of the overlay outside `changed` is live and hides an
equal element of the base, or is a marker and deletes nothing. -/
structure Overlay (L : Type*) where
  base : Set L
  layer : Set L
  live : Set L
  changed : Set L
  live_subset : live ⊆ layer
  changed_subset : changed ⊆ {x | x ∈ layer ∧ (x ∈ live ∨ x ∈ base)}
  live_iff_base : ∀ x ∈ layer, x ∉ changed → (x ∈ live ↔ x ∈ base)

namespace Overlay

/-- What remains of the base under the overlay, and the live elements. -/
def view (V : Overlay L) : Set L := {x | x ∈ V.live ∨ x ∈ V.base ∧ x ∉ V.layer}

/-- Every change of `U` in front of `τ` has an unchanged base element of `U` in front of it. -/
def Covers (V : Overlay L) (U : Set L) (τ : WithTop L) : Prop :=
  ∀ e ∈ V.changed, e ∈ U → (e : WithTop L) < τ → ∃ z ∈ V.base, z ∉ V.changed ∧ z ∈ U ∧ z < e

/-- Settling the cursors at `τ` and `δ` leaves them at `τ'` and `δ'`. -/
structure Settled (V : Overlay L) (τ δ τ' δ' : WithTop L) : Prop where
  live : IsFirst {t | t ∈ V.live ∧ τ ≤ t} τ'
  base : IsFirst {d | d ∈ V.base ∧ δ ≤ d ∧ ¬ (d ∈ V.layer ∧ τ ≤ d ∧ (d : WithTop L) ≤ τ')} δ'

variable {V : Overlay L} {U : Set L} {τ δ τ' δ' : WithTop L}

/-- A cursor on the first element of the overlay covers. -/
theorem covers_of_isFirst (h : IsFirst {x | x ∈ V.layer ∧ x ∈ U} τ) : V.Covers U τ :=
  fun e he heU hlt => absurd (h.le e ⟨(V.changed_subset he).1, heU⟩) (not_le.mpr hlt)

/-- A cursor on the first live element covers when no marker in front of it deletes anything. -/
theorem covers_of_live (h : ∀ t ∈ V.live, t ∈ U → τ ≤ t)
    (hdel : ∀ e ∈ V.base, e ∈ V.layer → e ∉ V.live → e ∈ U → ¬ (e : WithTop L) < τ) :
    V.Covers U τ := by
  intro e he heU hlt
  obtain ⟨heo, hor⟩ := V.changed_subset he
  have hlive : e ∉ V.live := fun hl => absurd (h e hl heU) (not_le.mpr hlt)
  exact absurd hlt (hdel e (hor.resolve_left hlive) heo hlive heU)

omit [LinearOrder L] in
theorem mem_view_of_base (hx : x ∈ V.base) (hc : x ∉ V.changed) : x ∈ V.view := by
  by_cases hover : x ∈ V.layer
  · exact Or.inl ((V.live_iff_base x hover hc).mpr hx)
  · exact Or.inr ⟨hx, hover⟩

/-- The base cursor moves on from an element both cursors stand on. -/
def Conflict (V : Overlay L) (τ δ δ₁ : WithTop L) : Prop :=
  (∃ x : L, τ = x ∧ δ = x ∧ IsFirst {d | d ∈ V.base ∧ x < d} δ₁) ∨ ((τ ≠ δ ∨ δ = ⊤) ∧ δ₁ = δ)

namespace Settled

theorem of_top (hδ : ∀ x : L, δ = x → x ∈ V.base) : V.Settled ⊤ δ ⊤ δ where
  live := ⟨fun x hx => absurd hx (by simp), fun y hy => absurd hy.2 (by simp)⟩
  base := ⟨fun x hx => ⟨hδ x hx, hx.le, fun hc => absurd hc.2.1 (by simp)⟩, fun y hy => hy.2.1⟩

/-- On a live element only the base cursor moves. -/
theorem of_live {t : L} (ht : t ∈ V.live) (hδ : ∀ x : L, δ = x → x ∈ V.base)
    (hconf : V.Conflict t δ δ₁) : V.Settled t δ t δ₁ where
  live := IsFirst.coe_iff.mpr ⟨⟨ht, le_rfl⟩, fun y hy => WithTop.coe_le_coe.mp hy.2⟩
  base := by
    rcases hconf with ⟨x, htx, rfl, hfirst⟩ | ⟨hne, rfl⟩
    · obtain rfl := WithTop.coe_injective htx
      constructor
      · intro d hd
        obtain ⟨hbase, hlt⟩ := hfirst.mem d hd
        refine ⟨hbase, WithTop.coe_le_coe.mpr hlt.le, fun hc => ?_⟩
        exact absurd (WithTop.coe_le_coe.mp hc.2.2) (not_le.mpr hlt)
      · rintro y ⟨hy, hty, hnot⟩
        refine hfirst.le y ⟨hy, lt_of_le_of_ne (WithTop.coe_le_coe.mp hty) ?_⟩
        rintro rfl
        exact hnot ⟨V.live_subset ht, le_rfl, le_rfl⟩
    · constructor
      · intro d hd
        refine ⟨hδ d hd, hd.le, fun hc => ?_⟩
        have htd : t = d := le_antisymm (WithTop.coe_le_coe.mp hc.2.1)
          (WithTop.coe_le_coe.mp hc.2.2)
        rcases hne with hne | htop
        · exact hne (htd ▸ hd.symm)
        · exact absurd (hd.symm.trans htop) (by simp)
      · exact fun y hy => hy.2.1

/-- A marker moves both cursors on, and the rest of the way settles them. -/
theorem of_marker {t : L} (ht : t ∈ V.layer) (hdel : t ∉ V.live)
    (hτ₁ : IsFirst {x | x ∈ V.layer ∧ t < x} τ₁) (hδ : ∀ x : L, δ = x → x ∈ V.base)
    (hconf : V.Conflict t δ δ₁) (h : V.Settled τ₁ δ₁ τ' δ') : V.Settled t δ τ' δ' := by
  have hnext : ∀ x ∈ V.layer, t < x ↔ τ₁ ≤ x := by
    refine fun x hx => ⟨fun htx => hτ₁.le x ⟨hx, htx⟩, fun hle => ?_⟩
    cases hc : τ₁ with
    | top => exact absurd (hc ▸ hle) (by simp)
    | coe y => exact (hτ₁.mem y hc).2.trans_le (WithTop.coe_le_coe.mp (hc ▸ hle))
  have hτ' : (t : WithTop L) ≤ τ' := by
    cases hc : τ' with
    | top => exact le_top
    | coe y =>
      obtain ⟨hy, hle⟩ := h.live.mem y hc
      exact WithTop.coe_le_coe.mpr ((hnext y (V.live_subset hy)).mpr hle).le
  refine ⟨h.live.congr fun x => and_congr_right fun hx => ?_, ?_⟩
  · rw [← hnext x (V.live_subset hx), WithTop.coe_le_coe]
    exact ⟨le_of_lt, fun hle => lt_of_le_of_ne hle fun hc => hdel (hc ▸ hx)⟩
  · rcases hconf with ⟨x, htx, rfl, hfirst⟩ | ⟨hne, rfl⟩
    · -- both cursors leave the marker
      obtain rfl := WithTop.coe_injective htx
      have hafter : ∀ d ∈ V.base, t < d ↔ δ₁ ≤ d := by
        refine fun d hd => ⟨fun htd => hfirst.le d ⟨hd, htd⟩, fun hle => ?_⟩
        cases hc : δ₁ with
        | top => exact absurd (hc ▸ hle) (by simp)
        | coe y => exact (hfirst.mem y hc).2.trans_le (WithTop.coe_le_coe.mp (hc ▸ hle))
      refine h.base.congr fun d => and_congr_right fun hd => ?_
      rw [← hafter d hd, WithTop.coe_le_coe]
      constructor
      · rintro ⟨htd, hnot⟩
        exact ⟨htd.le, fun hc => hnot ⟨hc.1, (hnext d hc.1).mp htd, hc.2.2⟩⟩
      · rintro ⟨htd, hnot⟩
        have hlt : t < d := lt_of_le_of_ne htd fun hc => hnot ⟨hc ▸ ht, hc.le, hc ▸ hτ'⟩
        refine ⟨hlt, fun hc => hnot ⟨hc.1, htd, hc.2.2⟩⟩
    · rcases lt_or_ge δ₁ t with hlt | hge
      · -- the base cursor is behind the marker and stays where it is
        cases hc : δ₁ with
        | top => exact absurd (hc ▸ hlt) (by simp)
        | coe y =>
          have hyt : y < t := WithTop.coe_lt_coe.mp (hc ▸ hlt)
          have hmem : ∀ p : WithTop L, (y : WithTop L) < p →
              y ∈ V.base ∧ δ₁ ≤ y ∧ ¬ (y ∈ V.layer ∧ p ≤ y ∧ (y : WithTop L) ≤ τ') := fun p hp =>
            ⟨hδ y hc, hc.le, fun hcon => absurd hcon.2.1 (not_le.mpr hp)⟩
          have hyτ₁ : (y : WithTop L) < τ₁ := by
            cases hc₁ : τ₁ with
            | top => exact WithTop.coe_lt_top y
            | coe z => exact WithTop.coe_lt_coe.mpr (hyt.trans (hτ₁.mem z hc₁).2)
          have hy : δ' = y := h.base.unique
            (IsFirst.coe_iff.mpr ⟨hmem τ₁ hyτ₁, fun z hz => WithTop.coe_le_coe.mp (hc ▸ hz.2.1)⟩)
          rw [hy, IsFirst.coe_iff]
          exact ⟨hc ▸ hmem t (WithTop.coe_lt_coe.mpr hyt), fun z hz => WithTop.coe_le_coe.mp hz.2.1⟩
      · have hlt : ∀ d : L, δ₁ ≤ (d : WithTop L) → t < d := by
          intro d hd
          refine lt_of_le_of_ne (WithTop.coe_le_coe.mp (hge.trans hd)) ?_
          rintro rfl
          rcases hne with hne | htop
          · exact hne (le_antisymm hge hd)
          · exact absurd (htop ▸ hd) (by simp)
        refine h.base.congr fun d => and_congr_right fun hd => and_congr_right fun hle => ?_
        refine not_congr (and_congr_right fun ho => and_congr_left fun _ => ?_)
        rw [← hnext d ho, WithTop.coe_le_coe]
        exact ⟨le_of_lt, fun _ => hlt d hle⟩

theorem mem_of_le (hU : IsUpperSet U) (h : ∀ x : L, τ = x → x ∈ U) {y : L} (hy : τ ≤ y) :
    y ∈ U := by
  cases τ with
  | top => exact absurd hy (by simp)
  | coe x => exact hU (WithTop.coe_le_coe.mp hy) (h x rfl)

section View

variable (h : V.Settled τ δ τ' δ') (hU : IsUpperSet U)
  (hδ : IsFirst {x | x ∈ V.base ∧ x ∈ U} δ) (hcover : V.Covers U τ)

include h hU hδ hcover

/-- A base element in front of the overlay cursor is not changed. -/
theorem notMem_changed (hlt : δ' < τ') {x : L} (hx : δ' = x) : x ∉ V.changed := by
  intro hchanged
  obtain ⟨hbase, hδx, hnot⟩ := h.base.mem x hx
  have hxU : x ∈ U := mem_of_le hU (fun y hy => (hδ.mem y hy).2) hδx
  have hxτ : (x : WithTop L) < τ := by
    by_contra hc
    exact hnot ⟨(V.changed_subset hchanged).1, not_lt.mp hc, hx ▸ hlt.le⟩
  obtain ⟨z, hz, -, hzU, hzx⟩ := hcover x hchanged hxU hxτ
  have hzτ : (z : WithTop L) < τ := (WithTop.coe_lt_coe.mpr hzx).trans hxτ
  have hle := h.base.le z ⟨hz, hδ.le z ⟨hz, hzU⟩, fun hc => absurd hc.2.1 (not_le.mpr hzτ)⟩
  rw [hx, WithTop.coe_le_coe] at hle
  exact absurd hle (not_le.mpr hzx)

/-- **The smaller settled cursor stands on the first element of the view.** -/
theorem isFirst_view (hτ : ∀ x : L, τ = x → x ∈ U) :
    IsFirst {x | x ∈ V.view ∧ x ∈ U} (min τ' δ') := by
  have hle : ∀ z ∈ V.base, (z : WithTop L) < τ → z ∈ U → δ' ≤ z := fun z hz hzτ hzU =>
    h.base.le z ⟨hz, hδ.le z ⟨hz, hzU⟩, fun hc => absurd hc.2.1 (not_le.mpr hzτ)⟩
  constructor
  · intro x hx
    rcases le_or_gt τ' δ' with hle' | hlt
    · rw [min_eq_left hle'] at hx
      obtain ⟨hlive, hτx⟩ := h.live.mem x hx
      exact ⟨Or.inl hlive, mem_of_le hU hτ hτx⟩
    · rw [min_eq_right hlt.le] at hx
      obtain ⟨hbase, hδx, -⟩ := h.base.mem x hx
      exact ⟨mem_view_of_base hbase (h.notMem_changed hU hδ hcover hlt hx),
        mem_of_le hU (fun y hy => (hδ.mem y hy).2) hδx⟩
  · rintro y ⟨hy, hyU⟩
    rcases hy with hlive | ⟨hbase, hno⟩
    · rcases le_or_gt τ y with hτy | hyτ
      · exact (min_le_left _ _).trans (h.live.le y ⟨hlive, hτy⟩)
      · -- a live element in front of the overlay cursor
        refine (min_le_right _ _).trans ?_
        by_cases hc : y ∈ V.changed
        · obtain ⟨z, hz, -, hzU, hzy⟩ := hcover y hc hyU hyτ
          have hzy' : (z : WithTop L) < y := WithTop.coe_lt_coe.mpr hzy
          exact (hle z hz (hzy'.trans hyτ) hzU).trans hzy'.le
        · exact hle y ((V.live_iff_base y (V.live_subset hlive) hc).mp hlive) hyτ hyU
    · exact (min_le_right _ _).trans (h.base.le y ⟨hbase, hδ.le y ⟨hbase, hyU⟩, fun hc => hno hc.1⟩)

end View

section

variable (h : V.Settled τ δ τ' δ')
include h

/-- Behind the overlay cursor the base cursor stands on the next base element. -/
theorem base_after {x : L} (hx : τ' = x) (hle : τ' ≤ δ')
    (hδ : ∀ d ∈ V.base, x < d → δ ≤ d) : IsFirst {d | d ∈ V.base ∧ x < d} δ' := by
  obtain ⟨hlive, hτx⟩ := h.live.mem x hx
  constructor
  · intro d hd
    obtain ⟨hbase, -, hnot⟩ := h.base.mem d hd
    refine ⟨hbase, lt_of_le_of_ne ?_ ?_⟩
    · rwa [hx, hd, WithTop.coe_le_coe] at hle
    · rintro rfl
      exact hnot ⟨V.live_subset hlive, hτx, hx.ge⟩
  · rintro d ⟨hd, hxd⟩
    refine h.base.le d ⟨hd, hδ d hd hxd, fun hc => ?_⟩
    have := hc.2.2
    rw [hx, WithTop.coe_le_coe] at this
    exact absurd this (not_le.mpr hxd)

/-- Behind the base cursor the overlay cursor stands on the next live element. -/
theorem live_after {x : L} (hx : (x : WithTop L) < τ')
    (hτ : ∀ t ∈ V.live, x < t → τ ≤ t) : IsFirst {t | t ∈ V.live ∧ x < t} τ' where
  mem t ht := ⟨(h.live.mem t ht).1, WithTop.coe_lt_coe.mp (ht ▸ hx)⟩
  le t ht := h.live.le t ⟨ht.1, hτ t ht.1 ht.2⟩

/-- Settling never passes the first element of the view when the live elements are ahead. -/
theorem min_le_of_mem_view (hy : y ∈ V.view)
    (hτ : y ∈ V.live → τ ≤ y) (hδ : y ∈ V.base → δ ≤ y) : min τ' δ' ≤ y := by
  rcases hy with hlive | ⟨hbase, hno⟩
  · exact (min_le_left _ _).trans (h.live.le y ⟨hlive, hτ hlive⟩)
  · exact (min_le_right _ _).trans (h.base.le y ⟨hbase, hδ hbase, fun hc => hno hc.1⟩)

/-- A base element that the overlay cursor has passed is shown as it is in the base. -/
theorem min_eq_of_passed {y : L} (hδ : δ = y) (hy : y ∈ V.base)
    (hyτ : (y : WithTop L) < τ) : min τ' δ' = y ∧ δ' < τ' := by
  have hτ' : τ ≤ τ' := by
    cases hc : τ' with
    | top => exact le_top
    | coe t => exact (h.live.mem t hc).2
  have hδ' : δ' = y := by
    refine le_antisymm (h.base.le y ⟨hy, hδ.le, fun hc => absurd hc.2.1 (not_le.mpr hyτ)⟩) ?_
    cases hc : δ' with
    | top => exact le_top
    | coe d => exact hδ ▸ (h.base.mem d hc).2.1
  rw [hδ']
  exact ⟨min_eq_right (hyτ.le.trans hτ'), hyτ.trans_le hτ'⟩

/-- An element that neither cursor reaches is passed over. -/
theorem lt_min_of_passed (hyδ : (y : WithTop L) < δ)
    (hyτ : (y : WithTop L) < τ) : (y : WithTop L) < min τ' δ' := by
  refine lt_min (hyτ.trans_le ?_) (hyδ.trans_le ?_)
  · cases hc : τ' with
    | top => exact le_top
    | coe t => exact (h.live.mem t hc).2
  · cases hc : δ' with
    | top => exact le_top
    | coe d => exact (h.base.mem d hc).2.1

end

end Settled

end Overlay

end WebKit
