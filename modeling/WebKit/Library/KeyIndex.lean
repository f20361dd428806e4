import Mathlib.Data.Finset.Insert
import Mathlib.Data.Finset.Erase

/-!
# An index of things by their keys

A set of things, each with a key that no other has, and a table that finds each of them under its
key.  The key may change while the thing is not in the table: `remove`, `congr` and `add` in this order
are the change of a key.
-/

namespace WebKit
namespace KeyIndex

variable {K T : Type*} [DecidableEq K]

variable (f : K → Option T)

/-- The table without what it has under the key. -/
def remove (k : K) : K → Option T := Function.update f k none

theorem remove_comm (k k' : K) : remove (remove f k) k' = remove (remove f k') k := by
  by_cases h : k = k'
  · rw [h]
  · exact Function.update_comm h none none f

/-- Adding does nothing when there is something under the key already. -/
def add (k : K) (t : T) : K → Option T :=
  match f k with
  | some _ => f
  | none => Function.update f k (some t)

/-- The table finds exactly the things in the set, each under its key. -/
def Represents (S : Finset T) (key : T → K) : Prop :=
  ∀ k t, f k = some t ↔ t ∈ S ∧ key t = k

namespace Represents

variable {f : K → Option T} {S : Finset T} {key g : T → K} {t : T}

variable (h : Represents f S key)

include h

omit [DecidableEq K] in
theorem find (ht : t ∈ S) : f (key t) = some t :=
  (h _ t).mpr ⟨ht, rfl⟩

omit [DecidableEq K] in
theorem key_injective (ht : t ∈ S) (ht' : t' ∈ S) (hkey : key t = key t') : t = t' := by
  have hfind := h.find ht
  rw [hkey, h.find ht'] at hfind
  exact (Option.some.inj hfind).symm

omit [DecidableEq K] in
/-- Nothing is under a key that no thing has. -/
theorem eq_none (hk : ∀ t ∈ S, key t ≠ k) : f k = none := by
  cases hf : f k with
  | none => rfl
  | some t =>
    obtain ⟨ht, hkey⟩ := (h k t).mp hf
    exact absurd hkey (hk t ht)

omit [DecidableEq K] in
theorem ne_of_eq_none (hk : f k = none) (ht : t ∈ S) :
    key t ≠ k := by
  rintro rfl
  rw [h.find ht] at hk
  cases hk

omit [DecidableEq K] in
/-- The keys of other things do not matter. -/
theorem congr (hkey : ∀ t ∈ S, g t = key t) : Represents f S g := by
  intro k t
  rw [h k t]
  exact and_congr_right fun ht => by rw [hkey t ht]

variable [DecidableEq T]

theorem remove (ht : t ∈ S) :
    Represents (KeyIndex.remove f (key t)) (S.erase t) key := by
  intro k t'
  unfold KeyIndex.remove
  rw [Finset.mem_erase, and_assoc]
  by_cases hk : k = key t
  · rw [hk, Function.update_self]
    refine ⟨nofun, fun ⟨hne, ht', hkey⟩ => ?_⟩
    exact absurd (h.key_injective ht' ht hkey) hne
  · rw [Function.update_of_ne hk, h k t']
    refine ⟨fun ⟨ht', hkey⟩ => ⟨?_, ht', hkey⟩, fun h => h.2⟩
    rintro rfl
    exact hk hkey.symm

theorem add (ht : t ∉ S) (hnew : ∀ t' ∈ S, key t' ≠ key t) :
    Represents (KeyIndex.add f (key t) t) (insert t S) key := by
  intro k t'
  unfold KeyIndex.add
  rw [h.eq_none hnew, Finset.mem_insert]
  simp only
  by_cases hk : k = key t
  · rw [hk, Function.update_self, Option.some.injEq]
    refine ⟨?_, fun ⟨hmem, hkey⟩ => ?_⟩
    · rintro rfl
      exact ⟨.inl rfl, rfl⟩
    · rcases hmem with rfl | hmem
      · rfl
      · exact absurd hkey (hnew t' hmem)
  · rw [Function.update_of_ne hk, h k t']
    refine and_congr_left fun hkey => (or_iff_right ?_).symm
    rintro rfl
    exact hk hkey.symm

end Represents

end KeyIndex
end WebKit
