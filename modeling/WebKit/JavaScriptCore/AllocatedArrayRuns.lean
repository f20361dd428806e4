import WebKit.JavaScriptCore.AllocatedArraySteps

/-!
# Runs of the storage of an array

The steps of a run grow, shift and unshift an array, in any order and with any answers of the heap;
in between other code writes lengths and slots, the array enters the sparse mode, and the collector
moves it.  The loops of `shiftCount` and `unshiftCount` call getters, which may take any steps.

* `accounted_of_run`: every array of a run is sound, where each `shiftCount` finds as many elements
  and values as it takes away.
* `not_accounted_of_run`: without that the length wraps, and where values lie behind the length, the
  slow case of `unshiftCount` does not leave empty slots.
-/

namespace WebKit
namespace JavaScriptCore

namespace AllocatedArray

variable {V : Type} {s s' s₀ : AllocatedArray V}

inductive Operation (V : Type)
  | write (length numValuesInVector : ℕ) (slots : List (Option V))
  | increaseVectorLength (grant : Option (Grant V)) (lastArraySize newLength : ℕ)
  | shiftCount (count : ℕ) (filled : AllocatedArray V)
  | unshiftCount (grant : Option (Grant V)) (count : ℕ) (filled : AllocatedArray V)
  | enterDictionaryMode (grant : Grant V)
  | visitChildren (grant : Grant V)

namespace Operation

def run (s : AllocatedArray V) : Operation V → Option (AllocatedArray V)
  | write length num slots => s.write length num slots
  | increaseVectorLength grant lastArraySize newLength =>
    (s.increaseVectorLength grant lastArraySize newLength).map Prod.fst
  | shiftCount count filled => s.shiftCount count filled
  | unshiftCount grant count filled => (s.unshiftCount grant count filled).map Prod.fst
  | enterDictionaryMode grant => s.enterDictionaryMode grant
  | visitChildren grant => s.visitChildren grant

/-- The array after the loop over the holes. -/
def filled : Operation V → Option (AllocatedArray V)
  | shiftCount _ filled => some filled
  | unshiftCount _ _ filled => some filled
  | _ => none

/-- What the asserts say and the heap promises: a vector grows, a shift has a count, and memory that
the heap gives is not that of the array. -/
def Allowed (s : AllocatedArray V) : Operation V → Prop
  | write _ _ slots => slots.length ≤ s.vectorLength
  | increaseVectorLength _ _ newLength => s.vectorLength < newLength
  | shiftCount count _ => 0 < count
  | unshiftCount grant _ filled =>
    ∀ g ∈ grant, g.base ≠ s.allocation.base ∧ g.base ≠ filled.allocation.base
  | _ => True

/-- `shiftCount` finds as many elements and values as it takes away. -/
def Meets (s : AllocatedArray V) : Operation V → Prop
  | shiftCount count filled => ∀ length num, s.lengths = some (length, num) → length ≠ 0 →
      if length = num then s.Covers false count length num
      else ∀ length' num', filled.lengths = some (length', num') →
        filled.Covers true count length' num'
  | _ => True

end Operation

/-- One array becomes another in steps that meet a condition. -/
inductive Run (meets : AllocatedArray V → Operation V → Prop) :
    AllocatedArray V → AllocatedArray V → Prop
  | refl (s : AllocatedArray V) : Run meets s s
  | step {s₀ s s' : AllocatedArray V} (h : Run meets s₀ s) (op : Operation V)
      (hfilled : ∀ filled ∈ op.filled, Run meets s filled) (hallowed : op.Allowed s)
      (hmeets : meets s op) (hrun : op.run s = some s') : Run meets s₀ s'

/-- A new array. -/
def Created (s : AllocatedArray V) : Prop :=
  (∃ grant initialLength, create grant initialLength = some s) ∨
    ∃ grant values, values.length ≤ maxStorageVectorLength ∧ createInitialized grant values = some s

/-- No value lies behind the length. -/
def ClearBehind (s : AllocatedArray V) : Prop :=
  ∀ length num, s.lengths = some (length, num) → ∀ i, length ≤ i → i < s.vectorLength →
    s.slot i = some none

/-- The used slots have moved up by the count; on a condition, the slots behind them are empty. -/
structure MovedUp (length count : ℕ) (clear : Prop) (s s' : AllocatedArray V) : Prop where
  lengths : s'.lengths = s.lengths
  moved : ∀ i < min s.vectorLength length, s'.slot (i + count) = s.slot i
  empty : clear → ∀ i, min s.vectorLength length + count ≤ i → i < s'.vectorLength →
    s'.slot i = some none

/-- What holds of an array of a run: vector and pre-capacity fit into a storage vector and into the
allocation at `m_allocBase`, no step wraps or goes astray, and the slow case of `unshiftCount` moves
the elements to their new places. -/
structure Accounted (meets : AllocatedArray V → Operation V → Prop)
    (clear : AllocatedArray V → Prop) (s : AllocatedArray V) : Prop where
  fits : s.vectorLength + s.indexBias ≤ maxStorageVectorLength
  room : 2 + s.vectorLength + s.indexBias ≤ s.allocation.words.length
  allocBase : s.allocBase = some s.allocation.base
  runs : ∀ op : Operation V, (∀ filled ∈ op.filled, Run meets s filled) → op.Allowed s →
    meets s op → ∃ s', op.run s = some s'
  slowCase : ∀ grant count length num, s.lengths = some (length, num) → s.indexBias < count →
    (∀ g ∈ grant, g.base ≠ s.allocation.base) →
      s.unshiftCountSlowCase grant count = some (s, false) ∨
        ∃ s', s.unshiftCountSlowCase grant count = some (s', true) ∧ s'.Sized ∧
          MovedUp length count (clear s) s s'

theorem Valid.shiftCount (h : s.Valid) (hfilled : filled.Valid)
    (hmeets : (Operation.shiftCount count filled).Meets s) :
    ∃ s', s.shiftCount count filled = some s' ∧ s'.Valid := by
  obtain ⟨length, num, hlengths⟩ := h.lengths
  have hcovers := hmeets length num hlengths
  unfold AllocatedArray.shiftCount
  simp only [hlengths, Option.bind_eq_bind, Option.bind_some]
  by_cases hzero : length = 0
  · rw [if_pos hzero]
    exact ⟨s, rfl, h⟩
  · rw [if_neg hzero]
    by_cases hholes : length = num
    · rw [if_pos hholes]
      have hcount := hcovers hzero
      rw [if_pos hholes] at hcount
      obtain ⟨s', hs', hvalid, -⟩ := h.shiftCountEnd hlengths hcount
      exact ⟨s', hs', hvalid⟩
    · rw [if_neg hholes]
      have hcount := hcovers hzero
      rw [if_neg hholes] at hcount
      obtain ⟨length', num', hlengths'⟩ := hfilled.lengths
      obtain ⟨s', hs', hvalid, -⟩ := hfilled.shiftCountEnd hlengths' (hcount _ _ hlengths')
      exact ⟨s', hs', hvalid⟩

theorem Valid.unshiftCount (h : s.Valid) (hfilled : filled.Valid)
    (hgrant : ∀ g ∈ grant, g.base ≠ s.allocation.base)
    (hgrant' : ∀ g ∈ grant, g.base ≠ filled.allocation.base) (count : ℕ) :
    ∃ s' success, s.unshiftCount grant count filled = some (s', success) ∧ s'.Valid := by
  obtain ⟨length, num, hlengths⟩ := h.lengths
  unfold AllocatedArray.unshiftCount
  simp only [hlengths, Option.bind_eq_bind, Option.bind_some]
  split
  · obtain hfalse | ⟨s', hs', hvalid, -⟩ := h.unshiftCountEnd hlengths hgrant count
    · exact ⟨s, false, hfalse, h⟩
    · exact ⟨s', true, hs', hvalid⟩
  · obtain ⟨length', num', hlengths'⟩ := hfilled.lengths
    obtain hfalse | ⟨s', hs', hvalid, -⟩ := hfilled.unshiftCountEnd hlengths' hgrant' count
    · exact ⟨filled, false, hfalse, hfilled⟩
    · exact ⟨s', true, hs', hvalid⟩

/-- A step of a valid array neither wraps nor goes astray, and leaves a valid array. -/
theorem Valid.run (h : s.Valid) {op : Operation V} (hfilled : ∀ filled ∈ op.filled, filled.Valid)
    (hallowed : op.Allowed s) (hmeets : op.Meets s) : ∃ s', op.run s = some s' ∧ s'.Valid := by
  cases op with
  | write length num slots =>
    obtain ⟨s', hs', hvalid, -⟩ := h.write length num hallowed
    exact ⟨s', hs', hvalid⟩
  | increaseVectorLength grant lastArraySize newLength =>
    dsimp only [Operation.run]
    obtain hfalse | ⟨s', hs', hvalid, -⟩ := h.increaseVectorLength hallowed grant lastArraySize
    · exact ⟨s, by rw [hfalse, Option.map_some], h⟩
    · exact ⟨s', by rw [hs', Option.map_some], hvalid⟩
  | shiftCount count filled => exact h.shiftCount (hfilled filled rfl) hmeets
  | unshiftCount grant count filled =>
    dsimp only [Operation.run]
    obtain ⟨s', success, hs', hvalid⟩ := h.unshiftCount (hfilled filled rfl)
      (fun g hg => (hallowed g hg).1) (fun g hg => (hallowed g hg).2) count
    exact ⟨s', by rw [hs', Option.map_some], hvalid⟩
  | enterDictionaryMode grant =>
    obtain ⟨s', hs', hvalid, -⟩ := h.enterDictionaryMode grant
    exact ⟨s', hs', hvalid⟩
  | visitChildren grant =>
    obtain ⟨s', hs', hvalid, -⟩ := h.visitChildren grant
    exact ⟨s', hs', hvalid⟩

theorem Created.valid (h : Created s) : s.Valid := by
  obtain ⟨grant, initialLength, hs⟩ | ⟨grant, values, hmax, hs⟩ := h
  · obtain ⟨s', hs', hvalid, -⟩ := create_spec grant initialLength
    exact Option.some.inj (hs.symm.trans hs') ▸ hvalid
  · obtain ⟨s', hs', hvalid, -⟩ := createInitialized_spec grant hmax
    exact Option.some.inj (hs.symm.trans hs') ▸ hvalid

/-- The arrays of a run are valid, those between the loops of a step included. -/
theorem Run.valid (h : Run (fun s op => op.Meets s) s₀ s) (h₀ : s₀.Valid) : s.Valid := by
  induction h with
  | refl => exact h₀
  | step _ op _ hallowed hmeets hrun ih ihfilled =>
    have hvalid := ih h₀
    obtain ⟨s', hs', hvalid'⟩ :=
      hvalid.run (fun filled hfilled => ihfilled filled hfilled hvalid) hallowed hmeets
    exact Option.some.inj (hs'.symm.trans hrun) ▸ hvalid'

/-- In every run whose shifts find as much as they take away, vector and pre-capacity fit into the
allocation, no step wraps or goes astray, and the slow case of `unshiftCount` moves the elements,
with empty slots behind them if there were no values behind the length. -/
theorem accounted_of_run (h₀ : Created s₀) (h : Run (fun s op => op.Meets s) s₀ s) :
    Accounted (fun s op => op.Meets s) ClearBehind s := by
  have hvalid := h.valid h₀.valid
  refine ⟨hvalid.fits, hvalid.room, hvalid.allocBase, fun op hfilled hallowed hmeets => ?_,
    fun grant count length num hlengths hcount hgrant => ?_⟩
  · obtain ⟨s', hs', -⟩ := hvalid.run
      (fun filled hmem => (hfilled filled hmem).valid hvalid) hallowed hmeets
    exact ⟨s', hs'⟩
  · obtain hfalse | ⟨s', hs', hsized, hunshifted⟩ :=
      hvalid.unshiftCountSlowCase hlengths hcount hgrant
    · exact .inl hfalse
    · refine .inr ⟨s', hs', hsized, hunshifted.lengths, hunshifted.moved,
        fun hclear i hi hi' => ?_⟩
      obtain hnone | ⟨j, hj, hj', hslot⟩ := hunshifted.behind i hi hi'
      · exact hnone
      · exact hslot.trans (hclear length num hlengths j hj hj')

section Uninterrupted

theorem Created.run (_ : Created s) (meets : AllocatedArray V → Operation V → Prop) :
    Run meets s s := .refl s

variable {meets : AllocatedArray V → Operation V → Prop}

/-- The loop over the holes finds nothing in the prototype. -/
theorem Run.shiftCount (h : Run meets s₀ s) (hcount : 0 < count)
    (hmeets : meets s (.shiftCount count s)) (hrun : s.shiftCount count s = some s') :
    Run meets s₀ s' :=
  h.step (.shiftCount count s) (by
    rintro filled ⟨⟩
    exact .refl s) hcount hmeets hrun

theorem Run.unshiftCount (h : Run meets s₀ s) (grant : Option (Grant V)) (count : ℕ)
    {success : Bool} (hgrant : ∀ g ∈ grant, g.base ≠ s.allocation.base)
    (hmeets : meets s (.unshiftCount grant count s))
    (hrun : s.unshiftCount grant count s = some (s', success)) : Run meets s₀ s' :=
  h.step (.unshiftCount grant count s) (by
    rintro filled ⟨⟩
    exact .refl s) (fun g hg => ⟨hgrant g hg, hgrant g hg⟩) hmeets (by
    dsimp only [Operation.run]
    rw [hrun, Option.map_some])

theorem Accounted.shiftCount {clear : AllocatedArray V → Prop} (h : Accounted meets clear s)
    {count : ℕ} (hcount : 0 < count) (hmeets : meets s (.shiftCount count s)) :
    ∃ s', s.shiftCount count s = some s' :=
  h.runs (.shiftCount count s) (by
    rintro filled ⟨⟩
    exact .refl s) hcount hmeets

end Uninterrupted

/-- An array of four values gives up the first two. -/
theorem accounted_of_run_shift : ∃ s : AllocatedArray ℕ, s.indexBias = 2 ∧
    Accounted (fun s op => op.Meets s) ClearBehind s := by
  have h₀ : createInitialized ⟨1, fun _ => .slot none⟩ [5, 6, 7, 8] =
      some (⟨⟨1, [.lengths 4 4, .allocBase 1, .slot (some 5), .slot (some 6), .slot (some 7),
        .slot (some 8)]⟩, 0, 4, 0⟩ : AllocatedArray ℕ) := rfl
  refine ⟨_, rfl, accounted_of_run (.inr ⟨_, _, by decide, h₀⟩)
    ((Run.refl _).shiftCount (show 0 < 2 by decide) ?_ rfl)⟩
  rintro length num ⟨⟩ -
  exact ⟨by decide, by decide⟩

/-- With a shift for more than the length, which a getter has made less in the meantime, the length
wraps.  And where the length cannot be changed, values come to lie behind it, and the slow case takes
two of them for empty slots. -/
theorem not_accounted_of_run :
    (¬ ∀ s₀ s : AllocatedArray ℕ, Created s₀ → Run (fun _ _ => True) s₀ s →
      Accounted (fun _ _ => True) (fun _ => True) s) ∧
    ¬ ∀ s₀ s : AllocatedArray ℕ, Created s₀ → Run (fun s op => op.Meets s) s₀ s →
      Accounted (fun s op => op.Meets s) (fun _ => True) s := by
  constructor
  · intro hall
    have h₀ : create ⟨1, fun _ => .slot none⟩ 10 =
        some (⟨⟨1, [.lengths 10 0, .allocBase 1, .slot none, .slot none, .slot none,
          .slot none]⟩, 0, 4, 0⟩ : AllocatedArray ℕ) := rfl
    have hcreated : Created _ := .inl ⟨_, _, h₀⟩
    have h₁ := (hcreated.run fun _ _ => True).step (.write 1 1 [some 7]) nofun
      (show 1 ≤ 4 by decide) trivial rfl
    obtain ⟨s', hs'⟩ := (hall _ _ hcreated h₁).shiftCount (show 0 < 5 by decide) trivial
    cases hs'
  · intro hall
    have h₀ : createInitialized ⟨1, fun _ => .slot none⟩ [5] =
        some (⟨⟨1, [.lengths 1 1, .allocBase 1, .slot (some 5), .slot none, .slot none,
          .slot none]⟩, 0, 4, 0⟩ : AllocatedArray ℕ) := rfl
    have hcreated : Created _ := .inr ⟨_, _, by decide, h₀⟩
    have h₁ := (hcreated.run fun s op => op.Meets s).step
      (.enterDictionaryMode ⟨2, fun _ => .slot none⟩) nofun trivial trivial rfl
    have h₂ := h₁.unshiftCount (some ⟨3, fun _ => .slot none⟩) 4 (by
      decide) trivial rfl
    have h₃ := h₂.step (.write 4 5 [some 1, some 2, some 3, some 4]) nofun
      (show 4 ≤ 4 by decide) trivial rfl
    have h₄ := h₃.unshiftCount none 4 nofun trivial rfl
    have h₅ := h₄.step (.write 4 9 [some 5, some 6, some 7, some 8]) nofun
      (show 4 ≤ 8 by decide) trivial rfl
    have h₆ := h₅.unshiftCount (some ⟨4, fun _ => .slot none⟩) 2 (by
      decide) trivial rfl
    have h₇ := h₆.step (.write 4 11 [some 9, some 10]) nofun (show 2 ≤ 8 by decide) trivial rfl
    have h₈ := h₇.unshiftCount none 4 nofun trivial rfl
    have h₉ := h₈.step (.write 4 15 [some 11, some 12, some 13, some 14]) nofun
      (show 4 ≤ 12 by decide) trivial rfl
    obtain hslow | ⟨s', hslow, -, hmoved⟩ := (hall _ _ hcreated h₉).slowCase none 1 4 15 rfl
      (by decide) nofun
    · cases hslow
    · cases hslow
      have hempty := hmoved.empty trivial 5 (by decide) (by decide)
      cases hempty

end AllocatedArray

end JavaScriptCore
end WebKit
