import Mathlib.Data.Fintype.EquivFin
import Mathlib.Data.Nat.ModEq

/-!
# Probe sequences

Where a hash table with open addressing looks for a key: from a start on, by steps of one length,
around a table.  When the length is prime to the size, every place is met within one round.

* `probe_injOn`: one round does not come back to a place.
* `exists_probe_eq`: one round meets every place.
* `exists_first_probe`: the first place with a property.
-/

namespace WebKit

/-- The place after so many steps. -/
def probe (size start step n : ℕ) : ℕ := (start + n * step) % size

variable {size start step : ℕ}

theorem probe_lt (h : 0 < size) (n : ℕ) : probe size start step n < size := Nat.mod_lt _ h

theorem probe_injOn (hcoprime : Nat.Coprime step size) (hn : n < size) (hm : m < size)
    (h : probe size start step n = probe size start step m) : n = m := by
  have hmul : n * step ≡ m * step [MOD size] := Nat.ModEq.add_left_cancel' start h
  have hmod : n ≡ m [MOD size] := Nat.ModEq.cancel_right_of_coprime hcoprime.symm hmul
  rwa [Nat.ModEq, Nat.mod_eq_of_lt hn, Nat.mod_eq_of_lt hm] at hmod

/-- One round meets every place. -/
theorem exists_probe_eq (start : ℕ) (hcoprime : Nat.Coprime step size) {p : ℕ} (hp : p < size) :
    ∃ n < size, probe size start step n = p := by
  have hpos : 0 < size := Nat.zero_lt_of_lt hp
  let round : Fin size → Fin size := fun n => ⟨probe size start step n, probe_lt hpos n⟩
  have hinjective : Function.Injective round := fun n m h =>
    Fin.ext (probe_injOn hcoprime n.isLt m.isLt (Fin.mk.inj h))
  obtain ⟨n, hn⟩ := (Finite.injective_iff_surjective.mp hinjective) ⟨p, hp⟩
  exact ⟨n, n.isLt, Fin.mk.inj hn⟩

/-- The first place of the sequence with a property that some place has. -/
theorem exists_first_probe (start : ℕ) (hcoprime : Nat.Coprime step size) {P : ℕ → Prop}
    (h : ∃ p < size, P p) :
    ∃ n < size, P (probe size start step n) ∧ ∀ m < n, ¬P (probe size start step m) := by
  classical
  obtain ⟨p, hp, hP⟩ := h
  obtain ⟨n, hn, rfl⟩ := exists_probe_eq start hcoprime hp
  have hexists : ∃ n, P (probe size start step n) := ⟨n, hP⟩
  exact ⟨Nat.find hexists, (Nat.find_min' hexists hP).trans_lt hn, Nat.find_spec hexists,
    fun m hm => Nat.find_min hexists hm⟩

end WebKit
