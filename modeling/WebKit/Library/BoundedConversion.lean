import Mathlib.Data.List.Basic

/-!
# Conversions into a buffer of bounded room

A conversion reads a word from the left.  At every point it stops for a reason of its own, or takes a
piece of the source and writes a piece of the target; when the piece does not fit, it stops before
the piece.

* `Next`: what happens at the start of a word.
* `convert`: the loop, with the room that is left in the target.
* `Converts`: the pieces of the source, taken one after the other, are written to the target.
* `convert_spec`: the loop takes pieces until it stops, and uses no more than its room.
* `convert_resume`: going on with more room where the room ended gives what the larger room would
  have given.
-/

namespace WebKit

open List

/-- What a conversion does at the start of a word. -/
inductive Next (α β ρ : Type*)
  | stop (reason : ρ)
  | emit (rest : List α) (units : List β)

/-- The end of a conversion: why it ended, the source that is left and the target that is written. -/
structure Converted (α β ρ : Type*) where
  result : ρ
  source : List α
  target : List β
  deriving DecidableEq

namespace Converted

variable {α β ρ : Type*}

/-- Writes units before what is written. -/
def after (units : List β) (c : Converted α β ρ) : Converted α β ρ :=
  { c with target := units ++ c.target }

@[simp] theorem after_target (units : List β) (c : Converted α β ρ) :
    (c.after units).target = units ++ c.target := rfl

@[simp] theorem after_nil (c : Converted α β ρ) : c.after [] = c := rfl

theorem after_after (units units' : List β) (c : Converted α β ρ) :
    (c.after units').after units = c.after (units ++ units') := by
  rw [after, after, after, append_assoc]

end Converted

variable {α β ρ : Type*}

/-- The loop over at most the number of pieces given.  `done` is the result at the end of the source,
`exhausted` that at the end of the room. -/
def convert (next : List α → Next α β ρ) (done exhausted : ρ) : ℕ → List α → ℕ → Converted α β ρ
  | 0, source, _ => ⟨done, source, []⟩
  | _ + 1, [], _ => ⟨done, [], []⟩
  | fuel + 1, a :: source, room =>
    match next (a :: source) with
    | .stop reason => ⟨reason, a :: source, []⟩
    | .emit rest units =>
      if room < units.length then ⟨exhausted, a :: source, []⟩
      else (convert next done exhausted fuel rest (room - units.length)).after units

/-- A conversion that takes at least one letter for each piece. -/
def Takes (next : List α → Next α β ρ) : Prop :=
  ∀ source rest units, next source = .emit rest units → rest.length < source.length

/-- The pieces between two words, taken one after the other, are written to a target. -/
inductive Converts (next : List α → Next α β ρ) : List α → List β → List α → Prop
  | nil (source : List α) : Converts next source [] source
  | cons {source rest left : List α} {units target : List β}
      (piece : next source = .emit rest units) (more : Converts next rest target left) :
      Converts next source (units ++ target) left

/-- Why a loop with some room ends where it ends. -/
def Ends (next : List α → Next α β ρ) (done exhausted : ρ) (room : ℕ)
    (c : Converted α β ρ) : Prop :=
  (c.source = [] ∧ c.result = done) ∨ (c.source ≠ [] ∧ next c.source = .stop c.result) ∨
    (c.source ≠ [] ∧ c.result = exhausted ∧
      ∃ rest units, next c.source = .emit rest units ∧ room < c.target.length + units.length)

section

variable {next : List α → Next α β ρ} {done exhausted : ρ}

theorem convert_nil (fuel room : ℕ) : convert next done exhausted fuel
    [] room = ⟨done, [], []⟩ := by
  cases fuel <;> rfl

theorem convert_stop (h : next (a :: source) = .stop reason) (fuel room : ℕ) :
    convert next done exhausted (fuel + 1) (a :: source) room = ⟨reason, a :: source, []⟩ := by
  rw [convert, h]

theorem convert_emit (h : next (a :: source) = .emit rest units) (fuel room : ℕ) :
    convert next done exhausted (fuel + 1) (a :: source) room =
      if room < units.length then ⟨exhausted, a :: source, []⟩
      else (convert next done exhausted fuel rest (room - units.length)).after units := by
  rw [convert, h]

section

variable (htakes : Takes next)
include htakes

/-- What is left is no longer than the source. -/
theorem Converts.length_le
    (h : Converts next source target left) : left.length ≤ source.length := by
  induction h with
  | nil source => exact Nat.le_refl _
  | cons piece _ ih => exact Nat.le_trans ih (Nat.le_of_lt (htakes _ _ _ piece))

/-- More rounds than letters change nothing. -/
theorem convert_fuel (h : source.length ≤ fuel) (h' : source.length ≤ fuel') (room : ℕ) :
    convert next done exhausted fuel source room =
      convert next done exhausted fuel' source room := by
  induction fuel generalizing fuel' source room with
  | zero =>
    obtain rfl := eq_nil_of_length_eq_zero (Nat.le_zero.mp h)
    rw [convert_nil, convert_nil]
  | succ fuel ih =>
    cases source with
    | nil => rw [convert_nil, convert_nil]
    | cons a source =>
      cases fuel' with
      | zero => simp at h'
      | succ fuel' =>
        cases hnext : next (a :: source) with
        | stop reason => rw [convert_stop hnext, convert_stop hnext]
        | emit rest units =>
          have hlt := htakes _ _ _ hnext
          rw [convert_emit hnext, convert_emit hnext, @ih fuel' _ (by omega) (by omega)]

/-- The loop takes pieces until it ends, within its room. -/
theorem convert_spec (h : source.length ≤ fuel) (room : ℕ) :
    Converts next source (convert next done exhausted fuel source room).target
        (convert next done exhausted fuel source room).source ∧
      (convert next done exhausted fuel source room).target.length ≤ room ∧
      Ends next done exhausted room (convert next done exhausted fuel source room) := by
  induction fuel generalizing source room with
  | zero =>
    obtain rfl := eq_nil_of_length_eq_zero (Nat.le_zero.mp h)
    exact ⟨.nil _, Nat.zero_le _, .inl ⟨rfl, rfl⟩⟩
  | succ fuel ih =>
    cases source with
    | nil => exact ⟨.nil _, Nat.zero_le _, .inl ⟨rfl, rfl⟩⟩
    | cons a source =>
      cases hnext : next (a :: source) with
      | stop reason =>
        rw [convert_stop hnext]
        exact ⟨.nil _, Nat.zero_le _, .inr (.inl ⟨cons_ne_nil _ _, hnext⟩)⟩
      | emit rest units =>
        rw [convert_emit hnext]
        by_cases hroom : room < units.length
        · rw [if_pos hroom]
          exact ⟨.nil _, Nat.zero_le _,
            .inr (.inr ⟨cons_ne_nil _ _, rfl, rest, units, hnext, by simpa using hroom⟩)⟩
        · have hlt := htakes _ _ _ hnext
          obtain ⟨h1, h2, h3⟩ := @ih rest (by omega) (room - units.length)
          rw [if_neg hroom]
          refine ⟨.cons hnext h1, ?_, ?_⟩
          · rw [Converted.after_target, length_append]
            omega
          · rcases h3 with h3 | h3 | ⟨h3, h4, rest', units', h5, h6⟩
            · exact .inl h3
            · exact .inr (.inl h3)
            · refine .inr (.inr ⟨h3, h4, rest', units', h5, ?_⟩)
              rw [Converted.after_target, length_append]
              omega

/-- Going on from where pieces were taken. -/
theorem convert_of_converts
    (hconverts : Converts next source target left) (h : source.length ≤ fuel) (room : ℕ) :
    convert next done exhausted fuel source (target.length + room) =
      (convert next done exhausted fuel left room).after target := by
  induction hconverts generalizing fuel with
  | nil source => rw [length_nil, Nat.zero_add, Converted.after_nil]
  | @cons source rest left units target piece more ih =>
    have hlt := htakes _ _ _ piece
    cases source with
    | nil => simp at hlt
    | cons a source =>
      cases fuel with
      | zero => simp at h
      | succ fuel =>
        have hleft := more.length_le htakes
        have hroom : ¬(units ++ target).length + room < units.length := by
          rw [length_append]
          omega
        have hrest : (units ++ target).length + room - units.length = target.length + room := by
          rw [length_append]
          omega
        rw [convert_emit piece, if_neg hroom, hrest, @ih fuel (by omega), Converted.after_after]
        rw [convert_fuel htakes (show left.length ≤ fuel by omega) (show left.length ≤ fuel + 1 by omega)]

/-- Going on with more room gives what the larger room would have given. -/
theorem convert_resume (h : source.length ≤ fuel) (room more : ℕ) :
    convert next done exhausted fuel source
        ((convert next done exhausted fuel source room).target.length + more) =
      (convert next done exhausted fuel (convert next done exhausted fuel source room).source
        more).after (convert next done exhausted fuel source room).target :=
  convert_of_converts htakes (convert_spec htakes h room).1 h more

end

end

end WebKit
