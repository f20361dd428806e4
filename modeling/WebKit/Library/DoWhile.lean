import Mathlib.Data.Nat.Init
import Mathlib.Logic.Relation
import Mathlib.Tactic.Common

/-!
# Loops that end by a measure

A loop as its iteration: a step that also says whether the loop goes on.  A measure that falls
whenever it goes on makes the loop a function.

* `DoWhile.run`: the loop.
* `DoWhile.Next`: one iteration after which the loop goes on.
* `DoWhile.run_spec`: the loop ends with the step of a state that it reaches.
* `DoWhile.run_induction`: the rule for invariants.
-/

namespace WebKit

/-- The iteration of a loop, with a measure that falls. -/
structure DoWhile (σ : Type*) where
  step : σ → σ × Bool
  measure : σ → ℕ
  measure_lt : ∀ s, (step s).2 = true → measure (step s).1 < measure s

namespace DoWhile

variable {σ : Type*} (loop : DoWhile σ)

/-- The loop from a state. -/
def run (s : σ) : σ :=
  if h : (loop.step s).2 = true then run (loop.step s).1 else (loop.step s).1
termination_by loop.measure s
decreasing_by exact loop.measure_lt s h

/-- An iteration after which the loop goes on. -/
def Next (s s' : σ) : Prop := loop.step s = (s', true)

variable {loop}

theorem run_of_true (h : loop.step s = (s', true)) : loop.run s = loop.run s' := by
  rw [run, dif_pos (by rw [h]), h]

theorem run_of_false (h : loop.step s = (s', false)) : loop.run s = s' := by
  rw [run, dif_neg (by rw [h]; exact Bool.false_ne_true), h]

variable (loop)

/-- The loop ends with the last step of a state that it reaches. -/
theorem run_spec (s : σ) :
    ∃ s', Relation.ReflTransGen loop.Next s s' ∧ loop.step s' = (loop.run s, false) := by
  induction hn : loop.measure s using Nat.strong_induction_on generalizing s with
  | _ n ih =>
    cases hstep : loop.step s with
    | mk next again =>
      cases again with
      | false => exact ⟨s, .refl, by rw [run_of_false hstep, hstep]⟩
      | true =>
        have hlt := loop.measure_lt s (by rw [hstep])
        rw [hstep] at hlt
        obtain ⟨s', hreach, hend⟩ := ih _ (hn ▸ hlt) next rfl
        exact ⟨s', .head hstep hreach, by rw [run_of_true hstep, hend]⟩

variable {loop}

/-- An invariant that each step keeps on a reached state holds at the end. -/
theorem run_induction {P : σ → Prop} (hstart : P s)
    (hstep : ∀ s', Relation.ReflTransGen loop.Next s s' → P s' → P (loop.step s').1) :
    P (loop.run s) := by
  obtain ⟨s', hreach, hend⟩ := loop.run_spec s
  have hreached : P s' := by
    clear hend
    induction hreach with
    | refl => exact hstart
    | @tail x y hreach hnext ih =>
      have hkept := hstep x hreach ih
      rwa [hnext] at hkept
  have hkept := hstep s' hreach hreached
  rwa [hend] at hkept

end DoWhile

end WebKit
