import Mathlib.Data.List.Basic

/-!
# Moving and filling words

Memory is a list of words.  `moveWords` copies a range of one allocation into a range of another or
of the same one, and `fillWords` writes one word to each place of a range; neither is defined where a
range is not inside of its allocation.

* `moveWords_spec`, `fillWords_spec`: they are defined on ranges inside, and what every place is
  afterwards.
-/

namespace WebKit

open List

variable {α : Type*}

variable (words : List α) (target : ℕ) (source : List α) (start count : ℕ)

/-- `count` words from `source` on, written to the places from `target` on. -/
def moveWords : Option (List α) :=
  if target + count ≤ words.length ∧ start + count ≤ source.length then
    some (words.take target ++ ((source.drop start).take count ++ words.drop (target + count)))
  else none

/-- `count` places from `start` on, one after another. -/
def fillWords (word : α) : ℕ → ℕ → List α → Option (List α)
  | 0, _, words => some words
  | count + 1, start, words =>
    if start < words.length then fillWords word count (start + 1) (words.set start word) else none

theorem moveWords_spec
    (htarget : target + count ≤ words.length) (hstart : start + count ≤ source.length) :
    ∃ words', moveWords words target source start count = some words' ∧
      words'.length = words.length ∧ (∀ i < count, words'[target + i]? = source[start + i]?) ∧
          ∀ i, i < target ∨ target + count ≤ i → words'[i]? = words[i]? := by
  have htake : (words.take target).length = target := length_take_of_le (by omega)
  have hmoved : ((source.drop start).take count).length = count :=
    length_take_of_le (by rw [length_drop]; omega)
  refine ⟨_, if_pos ⟨htarget, hstart⟩, ?_, fun i hi => ?_, fun i hi => ?_⟩
  · rw [length_append, length_append, length_drop]
    omega
  · rw [List.getElem?_append_right (by omega), htake, Nat.add_sub_cancel_left,
      List.getElem?_append_left (by omega), List.getElem?_take_of_lt hi, List.getElem?_drop]
  · obtain hi | hi := hi
    · rw [List.getElem?_append_left (by omega), List.getElem?_take_of_lt hi]
    · rw [List.getElem?_append_right (by omega), List.getElem?_append_right (by omega), List.getElem?_drop]
      congr 1
      omega

theorem fillWords_spec (word : α) : ∀ (count start : ℕ) {words : List α},
    start + count ≤ words.length → ∃ words', fillWords word count start words = some words' ∧
      words'.length = words.length ∧ (∀ i < count, words'[start + i]? = some word) ∧
          ∀ i, i < start ∨ start + count ≤ i → words'[i]? = words[i]?
  | 0, _, words, _ => ⟨words, rfl, rfl, fun _ hi => absurd hi (Nat.not_lt_zero _), fun _ _ => rfl⟩
  | count + 1, start, words, h => by
    have hlength : start + 1 + count ≤ (words.set start word).length := by
      rw [length_set]
      omega
    obtain ⟨words', hfill, hsize, hfilled, hother⟩ := fillWords_spec word count (start + 1) hlength
    refine ⟨words', ?_, hsize.trans length_set, fun i hi => ?_, fun i hi => ?_⟩
    · rw [fillWords, if_pos (by omega), hfill]
    · cases i with
      | zero =>
        rw [hother _ (.inl (by omega)), Nat.add_zero, List.getElem?_set_self (by omega)]
      | succ i => rw [← hfilled i (by omega), Nat.add_assoc start 1, Nat.add_comm 1]
    · rw [hother i (by omega), List.getElem?_set_ne (by omega)]

end WebKit
