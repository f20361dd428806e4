import WebKit.JavaScriptCore.PropertyHashSizes
import WebKit.Library.Probing

/-!
# The index of a property table

`Stores t filled`: the table holds these values, removed ones among them, and the index leads to each
that is not removed.  Less than all cells of the index are in use, so every loop of `find` ends.

* `Stores.find_present`, `Stores.find_absent`.
* `Stores.entries_eq`: iteration.
* `Stores.insertAt`, `Stores.clear`: what `add` and `remove` do to the memory.
-/

namespace WebKit

open List Nat
namespace JavaScriptCore

variable {Name Cell : Type*}

/-- A value that was added. -/
def ValueType.ofOption : Option (PropertyMapEntry Name Cell) → ValueType Name Cell
  | none => .deleted
  | some e => .entry e

namespace PropertyHashTable

variable (existingHash : Name → UInt32)

/-! ## Probes -/

/-- The step of the probes for a key. -/
def stepOf (key : Name) : ℕ := doubleHash (existingHash key).toNat ||| 1

/-- The cell of a probe. -/
def cellAt (t : PropertyHashTable Name Cell) (key : Name) (n : ℕ) : ℕ :=
  probe t.indexSize (existingHash key).toNat (stepOf existingHash key) n

theorem stepOf_odd (key : Name) : stepOf existingHash key % 2 = 1 := by
  have hbit : (stepOf existingHash key).testBit 0 = true := by
    rw [stepOf]
    simp
  simpa [testBit_zero] using hbit

theorem coprime_stepOf (key : Name) (j : ℕ) : Nat.Coprime (stepOf existingHash key) (2 ^ j) := by
  refine Nat.Coprime.pow_right j ?_
  rw [coprime_two_right, odd_iff]
  exact stepOf_odd existingHash key

/-- The values that the table holds, and the index that leads to them. -/
structure Stores (t : PropertyHashTable Name Cell)
    (filled : List (Option (PropertyMapEntry Name Cell))) : Prop where
  size : ∃ j, 4 ≤ j ∧ j ≤ 31 ∧ t.indexSize = 2 ^ j
  table_eq : t.table = filled.map ValueType.ofOption ++
    List.replicate (t.tableCapacity + 1 - filled.length) .null
  length_le : filled.length ≤ t.tableCapacity
  keyCount_eq : t.keyCount = filled.reduceOption.length
  usedCount_eq : t.usedCount = filled.length
  keys_nodup : (filled.reduceOption.map (·.key)).Nodup
  index_length : t.index.length = t.indexSize
  full_cells : t.index.countP (· ≠ 0) = filled.length
  cells : ∀ p v : ℕ, t.index[p]? = some v →
    v = 0 ∨ v = t.deletedEntryIndex ∨ ∃ i e, v = i + 1 ∧ filled[i]? = some (some e)
  once : ∀ p q i : ℕ, i < filled.length → t.index[p]? = some (i + 1) → t.index[q]? = some (i + 1) →
    p = q
  placed : ∀ (i : ℕ) e, filled[i]? = some (some e) → ∃ n < t.indexSize,
    t.index[cellAt existingHash t e.key n]? = some (i + 1) ∧
      ∀ m < n, t.index[cellAt existingHash t e.key m]? ≠ some 0

namespace Stores

variable {existingHash} {t : PropertyHashTable Name Cell}
  {filled : List (Option (PropertyMapEntry Name Cell))}

/-! ## What is in the memory -/

variable (h : Stores existingHash t filled)

include h

theorem indexSize_pos : 0 < t.indexSize := by
  obtain ⟨j, -, -, hsize⟩ := h.size
  rw [hsize]
  exact Nat.two_pow_pos j

theorem cellAt_lt (key : Name) (n : ℕ) :
    cellAt existingHash t key n < t.index.length := by
  rw [h.index_length]
  exact probe_lt h.indexSize_pos n

variable {i n : ℕ} {key : Name} {e : PropertyMapEntry Name Cell}

theorem table_of_lt (hi : i < filled.length) :
    t.table[i]? = (filled[i]?).map ValueType.ofOption := by
  rw [h.table_eq, List.getElem?_append_left (by rwa [length_map]), List.getElem?_map]

theorem table_of_ge (hi : filled.length ≤ i)
    (hle : i ≤ t.tableCapacity) : t.table[i]? = some .null := by
  rw [h.table_eq, List.getElem?_append_right (by rwa [length_map]), length_map,
    List.getElem?_replicate, if_pos (by omega)]

theorem tableCapacity_lt : t.tableCapacity < t.indexSize := by
  have hpos := h.indexSize_pos
  rw [tableCapacity]
  omega

/-- Some cell of the index is empty. -/
theorem exists_empty :
    ∃ p < t.indexSize, t.index[p]? = some 0 := by
  by_contra hnone
  have hall : ∀ v ∈ t.index, decide (v ≠ 0) = true := by
    intro v hv
    obtain ⟨p, hp⟩ := List.getElem?_of_mem hv
    refine decide_eq_true fun hzero => hnone ⟨p, ?_, hzero ▸ hp⟩
    rw [← h.index_length]
    exact (List.getElem?_eq_some_iff.mp hp).1
  have hcount := h.full_cells
  rw [countP_eq_length.mpr hall, h.index_length] at hcount
  have hle := h.length_le
  have hlt := h.tableCapacity_lt
  omega

/-- The hash and the step of the loop at a probe. -/
theorem and_indexMask (key : Name) (n : ℕ) :
    ((existingHash key).toNat + n * stepOf existingHash key) % 2 ^ 32 &&& t.indexMask =
      cellAt existingHash t key n := by
  obtain ⟨j, -, hj, hsize⟩ := h.size
  have hlt : 2 ^ j < 2 ^ 32 := Nat.pow_lt_pow_right (by decide) (by omega)
  have hpos : 0 < 2 ^ j := Nat.two_pow_pos j
  have hmask : t.indexMask = 2 ^ j - 1 := by
    rw [indexMask]
    omega
  rw [hmask, and_two_pow_sub_one_eq_mod, mod_mod_of_dvd _ (pow_dvd_pow 2 (by omega)),
    cellAt, probe, hsize]

variable [DecidableEq Name]

/-- What a probe reads at a cell that is not empty. -/
theorem read_cell (key : Name) {p : ℕ} (hp : t.index[p]? = some v) (hv : v ≠ 0) :
    ∃ value, t.table[v - 1]? = some value ∧
      (ValueType.hasKey key value = true ↔ ∃ e, filled[v - 1]? = some (some e) ∧ e.key = key) := by
  rcases h.cells p v hp with hzero | rfl | ⟨i, e, rfl, hi⟩
  · exact absurd hzero hv
  · refine ⟨.null, h.table_of_ge h.length_le le_rfl, ?_⟩
    have hnone : filled[t.deletedEntryIndex - 1]? = none := List.getElem?_eq_none h.length_le
    rw [hnone]
    simp [ValueType.hasKey]
  · refine ⟨.entry e, ?_, ?_⟩
    · rw [Nat.add_sub_cancel, h.table_of_lt (List.getElem?_eq_some_iff.mp hi).1, hi]
      rfl
    · rw [Nat.add_sub_cancel, hi]
      simp [ValueType.hasKey]

/-! ## The loop of `find` -/

/-- The hash and the step in the loop before a probe. -/
def loopAt (existingHash : Name → UInt32) (key : Name) (n : ℕ) : ℕ × ℕ :=
  (((existingHash key).toNat + n * stepOf existingHash key) % 2 ^ 32,
    if n = 0 then 0 else stepOf existingHash key)

/-- A cell that is in use, but not for the key. -/
def Passes (t : PropertyHashTable Name Cell) (key : Name) (p : ℕ) : Prop :=
  ∃ v value, t.index[p]? = some v ∧ v ≠ 0 ∧ t.table[v - 1]? = some value ∧
    ¬ValueType.hasKey key value = true

theorem findLoop_step (hpass : Passes t key (cellAt existingHash t key n)) (probes : ℕ) :
    findLoop existingHash key t (probes + 1) (loopAt existingHash key n).1
        (loopAt existingHash key n).2 =
      findLoop existingHash key t probes (loopAt existingHash key (n + 1)).1
        (loopAt existingHash key (n + 1)).2 := by
  obtain ⟨v, value, hindex, hv, htable, hkey⟩ := hpass
  have hcell : (loopAt existingHash key n).1 &&& t.indexMask = cellAt existingHash t key n :=
    h.and_indexMask key n
  have hpos : stepOf existingHash key ≠ 0 := fun hzero => by
    have hodd := stepOf_odd existingHash key
    omega
  have hstep : (if (loopAt existingHash key n).2 = 0 then doubleHash (existingHash key).toNat ||| 1
      else (loopAt existingHash key n).2) = stepOf existingHash key := by
    unfold loopAt
    by_cases hn : n = 0
    · rw [if_pos hn, if_pos rfl, stepOf]
    · rw [if_neg hn, if_neg hpos]
  have hhash : ((loopAt existingHash key n).1 + stepOf existingHash key) % 2 ^ 32 =
      (loopAt existingHash key (n + 1)).1 := by
    rw [loopAt, loopAt, mod_add_mod, add_mul, one_mul, add_assoc]
  have hnext : (loopAt existingHash key (n + 1)).2 = stepOf existingHash key := by
    rw [loopAt, if_neg (succ_ne_zero n)]
  rw [findLoop, hcell, hindex]
  dsimp only
  rw [if_neg (show ¬v = emptyEntryIndex from hv), htable]
  dsimp only
  rw [if_neg hkey, hstep, hhash, hnext]

/-- The loop gets to every probe before which all cells are passed. -/
theorem findLoop_eq (n : ℕ)
    (hpass : ∀ m < n, Passes t key (cellAt existingHash t key m)) (probes : ℕ) :
    findLoop existingHash key t (n + probes) (existingHash key).toNat 0 =
      findLoop existingHash key t probes (loopAt existingHash key n).1
        (loopAt existingHash key n).2 := by
  induction n generalizing probes with
  | zero =>
    have hhash : (loopAt existingHash key 0).1 = (existingHash key).toNat := by
      rw [loopAt, zero_mul]
      exact mod_eq_of_lt (existingHash key).toNat_lt
    rw [zero_add, hhash]
    rfl
  | succ n ih =>
    rw [show n + 1 + probes = n + (probes + 1) by omega,
      ih (fun m hm => hpass m (lt_succ_of_lt hm)), h.findLoop_step (hpass n (lt_succ_self n))]

/-- The loop ends at the first cell that is not passed, if there is one in the first round. -/
theorem find_eq {v : ℕ} (hn : n < t.indexSize)
    (hpass : ∀ m < n, Passes t key (cellAt existingHash t key m))
    (hv : t.index[cellAt existingHash t key n]? = some v) :
    (v = 0 → t.find existingHash key = some (none, cellAt existingHash t key n)) ∧
      (v ≠ 0 → ∀ value, t.table[v - 1]? = some value → ValueType.hasKey key value = true →
        t.find existingHash key = some (some (v - 1), cellAt existingHash t key n)) := by
  have hcell : (loopAt existingHash key n).1 &&& t.indexMask = cellAt existingHash t key n :=
    h.and_indexMask key n
  have hloop : t.find existingHash key =
      findLoop existingHash key t (t.indexSize - n + 1) (loopAt existingHash key n).1
        (loopAt existingHash key n).2 := by
    rw [find, ← h.findLoop_eq n hpass]
    congr 1
    omega
  rw [hloop, findLoop, hcell, hv]
  dsimp only
  refine ⟨fun hzero => if_pos hzero, fun hne value htable hkey => ?_⟩
  rw [if_neg (show ¬v = emptyEntryIndex from hne), htable]
  exact if_pos hkey

omit h [DecidableEq Name] in
theorem mem_reduceOption : e ∈ filled.reduceOption ↔ ∃ i : ℕ, filled[i]? = some (some e) := by
  rw [reduceOption_mem_iff, mem_iff_getElem?]

variable (hi : filled[i]? = some (some e))

include hi

omit h [DecidableEq Name] in
/-- The entries before a value and after it. -/
theorem reduceOption_split :
    filled.reduceOption = (filled.take i).reduceOption ++ e :: (filled.drop (i + 1)).reduceOption := by
  have hsplit : filled = filled.take i ++ some e :: filled.drop (i + 1) := by
    obtain ⟨hlt, hget⟩ := List.getElem?_eq_some_iff.mp hi
    rw [← hget, ← drop_eq_getElem_cons hlt, take_append_drop]
  conv_lhs => rw [hsplit]
  rw [reduceOption_append, reduceOption_cons_of_some]

omit [DecidableEq Name] in
/-- Two values of one key are the same. -/
theorem eq_of_key {k : ℕ} {e' : PropertyMapEntry Name Cell} (hk : filled[k]? = some (some e')) (hkey : e'.key = e.key) :
    k = i := by
  have hnodup := h.keys_nodup
  rw [reduceOption_split hi, map_append, map_cons, nodup_append, nodup_cons] at hnodup
  obtain ⟨-, ⟨hafter, -⟩, hbefore⟩ := hnodup
  rcases lt_trichotomy k i with hlt | heq | hlt
  · have hmem : e' ∈ (filled.take i).reduceOption := by
      refine mem_reduceOption.mpr ⟨k, ?_⟩
      rw [List.getElem?_take_of_lt hlt, hk]
    exact absurd hkey (hbefore _ (mem_map_of_mem hmem) _ mem_cons_self)
  · exact heq
  · have hmem : e' ∈ (filled.drop (i + 1)).reduceOption := by
      refine mem_reduceOption.mpr ⟨k - (i + 1), ?_⟩
      rw [List.getElem?_drop, show i + 1 + (k - (i + 1)) = k by omega, hk]
    exact absurd (hkey ▸ mem_map_of_mem hmem) hafter

/-- A key of the table is found, with its cell. -/
theorem find_present :
    ∃ p, t.find existingHash e.key = some (some i, p) ∧ t.index[p]? = some (i + 1) := by
  obtain ⟨n, hn, hindex, hbefore⟩ := h.placed i e hi
  have hlt : i < filled.length := (List.getElem?_eq_some_iff.mp hi).1
  refine ⟨_, (h.find_eq hn (fun m hm => ?_) hindex).2 (succ_ne_zero i) (.entry e) ?_ ?_, hindex⟩
  · -- an earlier cell is in use, and not for this value
    obtain ⟨v, hv⟩ : ∃ v, t.index[cellAt existingHash t e.key m]? = some v :=
      ⟨_, List.getElem?_eq_getElem (h.cellAt_lt e.key m)⟩
    have hne : v ≠ 0 := fun hzero => hbefore m hm (hzero ▸ hv)
    obtain ⟨value, htable, hkey⟩ := h.read_cell e.key hv hne
    refine ⟨v, value, hv, hne, htable, fun hhas => ?_⟩
    obtain ⟨e', he', hkey'⟩ := hkey.mp hhas
    have hslot := h.eq_of_key hi he' hkey'
    have hvi : v = i + 1 := by omega
    obtain ⟨j, -, -, hsize⟩ := h.size
    have hsame := h.once _ _ i hlt (hvi ▸ hv) hindex
    have hmn : m = n := probe_injOn (hsize ▸ coprime_stepOf existingHash e.key j)
      (hm.trans hn) hn hsame
    omega
  · rw [Nat.add_sub_cancel, h.table_of_lt hlt, hi]
    rfl
  · simp [ValueType.hasKey]

omit hi

/-- Of another key the first empty cell is found. -/
theorem find_absent (hkey : ∀ e ∈ filled.reduceOption, e.key ≠ key) :
    ∃ n < t.indexSize, t.find existingHash key = some (none, cellAt existingHash t key n) ∧
      t.index[cellAt existingHash t key n]? = some 0 ∧
        ∀ m < n, t.index[cellAt existingHash t key m]? ≠ some 0 := by
  obtain ⟨j, -, -, hsize⟩ := h.size
  obtain ⟨n, hn, hempty, hbefore⟩ := exists_first_probe (existingHash key).toNat
    (hsize ▸ coprime_stepOf existingHash key j) h.exists_empty
  refine ⟨n, hn, (h.find_eq hn (fun m hm => ?_) hempty).1 rfl, hempty, hbefore⟩
  obtain ⟨v, hv⟩ : ∃ v, t.index[cellAt existingHash t key m]? = some v :=
    ⟨_, List.getElem?_eq_getElem (h.cellAt_lt key m)⟩
  have hne : v ≠ 0 := fun hzero => hbefore m hm (hzero ▸ hv)
  obtain ⟨value, htable, hread⟩ := h.read_cell key hv hne
  refine ⟨v, value, hv, hne, htable, fun hhas => ?_⟩
  obtain ⟨e, he, hsame⟩ := hread.mp hhas
  exact hkey e (mem_reduceOption.mpr ⟨_, he⟩) hsame

/-! ## Iteration -/

omit h [DecidableEq Name] in
/-- Iteration over the rest of the values ends before the guard. -/
theorem entriesFrom_eq {tail : List (ValueType Name Cell)} :
    ∀ {filled : List (Option (PropertyMapEntry Name Cell))} {i fuel : ℕ},
      t.table.drop i = filled.map ValueType.ofOption ++ .null :: tail →
        i + filled.length = t.usedCount → filled.length < fuel →
          ∃ j, t.iterator i = some j ∧ t.entriesFrom fuel j = some filled.reduceOption
  | [], i, fuel + 1, hdrop, hused, _ => by
    refine ⟨i, ?_, ?_⟩
    · rw [iterator, hdrop]
      rfl
    · rw [entriesFrom, if_pos (show i = t.usedCount from hused)]
      rfl
  | none :: filled, i, fuel + 1, hdrop, hused, hfuel => by
    rw [length_cons] at hused hfuel
    have hnext : t.table.drop (i + 1) = filled.map ValueType.ofOption ++ .null :: tail := by
      rw [← drop_drop, hdrop]
      rfl
    obtain ⟨j, hj, hentries⟩ := entriesFrom_eq hnext (by omega) (show filled.length < fuel + 1 by omega)
    refine ⟨j, ?_, hentries⟩
    rw [← hj, iterator, iterator, hdrop, hnext]
    rfl
  | some e :: filled, i, fuel + 1, hdrop, hused, hfuel => by
    rw [length_cons] at hused hfuel
    have hnext : t.table.drop (i + 1) = filled.map ValueType.ofOption ++ .null :: tail := by
      rw [← drop_drop, hdrop]
      rfl
    have hget : t.table[i]? = some (.entry e) := by
      have hhead := @List.getElem?_drop _ t.table i 0
      rw [hdrop] at hhead
      exact hhead.symm
    obtain ⟨j, hj, hentries⟩ := entriesFrom_eq hnext (by omega) (show filled.length < fuel by omega)
    refine ⟨i, ?_, ?_⟩
    · rw [iterator, hdrop]
      rfl
    · rw [entriesFrom, if_neg (by omega), hget]
      rw [hj]
      dsimp only
      rw [hentries]
      rfl

omit [DecidableEq Name] in
/-- Iteration yields the entries in the order in which they were added. -/
theorem entries_eq : t.entries = some filled.reduceOption := by
  have hle := h.length_le
  have htable : t.table.drop 0 = filled.map ValueType.ofOption ++
      .null :: List.replicate (t.tableCapacity - filled.length) .null := by
    rw [drop_zero, h.table_eq, show t.tableCapacity + 1 - filled.length =
      t.tableCapacity - filled.length + 1 by omega, replicate_succ]
  have hfuel : filled.length < t.usedCount + 1 := lt_succ_of_le h.usedCount_eq.ge
  obtain ⟨j, hj, hentries⟩ :=
    entriesFrom_eq htable ((zero_add _).trans h.usedCount_eq.symm) hfuel
  rw [entries, hj]
  exact hentries

/-! ## Adding a value -/

omit [DecidableEq Name] in
/-- A value is added at the end, and an empty cell leads to it. -/
theorem insertAt (hroom : filled.length < t.tableCapacity)
    (hkey : ∀ e' ∈ filled.reduceOption, e'.key ≠ e.key) (hn : n < t.indexSize)
    (hempty : t.index[cellAt existingHash t e.key n]? = some 0)
    (hbefore : ∀ m < n, t.index[cellAt existingHash t e.key m]? ≠ some 0) :
    ∃ t', t.insertAt (cellAt existingHash t e.key n) e = some t' ∧
      Stores existingHash t' (filled ++ [some e]) ∧ t'.indexSize = t.indexSize ∧
        t'.deletedOffsets = t.deletedOffsets := by
  have hcell := h.cellAt_lt e.key n
  generalize hp : cellAt existingHash t e.key n = p at hempty hcell ⊢
  have hlength : t.table.length = t.tableCapacity + 1 := by
    rw [h.table_eq, length_append, length_map, length_replicate]
    omega
  have hused : t.usedCount < t.table.length := by
    rw [h.usedCount_eq]
    omega
  refine ⟨_, if_pos ⟨hcell, hused⟩, ?_, rfl, rfl⟩
  have hget : ∀ q, (t.index.set p (t.usedCount + 1))[q]? =
      if p = q then some (filled.length + 1) else t.index[q]? := by
    intro q
    rw [List.getElem?_set, h.usedCount_eq]
    by_cases hpq : p = q
    · rw [if_pos hpq, if_pos hpq, if_pos hcell]
    · rw [if_neg hpq, if_neg hpq]
  have hold : ∀ (k : ℕ) e', filled[k]? = some (some e') →
      (filled ++ [some e])[k]? = some (some e') := fun k e' hk => by
    rw [List.getElem?_append_left (List.getElem?_eq_some_iff.mp hk).1, hk]
  have hnew : (filled ++ [some e])[filled.length]? = some (some e) := List.getElem?_concat_length
  have hlast : (filled ++ [some e]).length = filled.length + 1 := length_append
  -- no old cell has the new number
  have hunused : ∀ q : ℕ, t.index[q]? ≠ some (filled.length + 1) := by
    intro q hq
    rcases h.cells q _ hq with hzero | hdeleted | ⟨k, e', hk, hfilled⟩
    · cases hzero
    · rw [deletedEntryIndex] at hdeleted
      omega
    · have hlt := (List.getElem?_eq_some_iff.mp hfilled).1
      omega
  refine ⟨h.size, ?_, ?_, ?_, ?_, ?_, ?_, ?_, ?_, ?_, ?_⟩
  · rw [h.table_eq, h.usedCount_eq, set_append_right _ _ (by rw [length_map]),
      length_map, Nat.sub_self, hlast,
      show t.tableCapacity + 1 - filled.length = t.tableCapacity + 1 - (filled.length + 1) + 1 by
        omega, map_append, append_assoc]
    rfl
  · exact hlast.trans_le hroom
  · rw [h.keyCount_eq, reduceOption_append, length_append]
    rfl
  · change t.keyCount + 1 + t.deletedCount = _
    have hcount := h.usedCount_eq
    rw [usedCount] at hcount
    omega
  · rw [reduceOption_append, map_append, nodup_append]
    refine ⟨h.keys_nodup, nodup_singleton _, fun k hk k' hk' => ?_⟩
    obtain ⟨e', he', rfl⟩ := mem_map.mp hk
    rw [show k' = e.key from mem_singleton.mp hk']
    exact hkey e' he'
  · rw [length_set]
    exact h.index_length
  · obtain ⟨_, hzero⟩ := List.getElem?_eq_some_iff.mp hempty
    rw [countP_set hcell, h.full_cells, hzero]
    simp
  · intro q v hq
    rw [hget] at hq
    split at hq
    · obtain rfl := Option.some.inj hq
      exact .inr (.inr ⟨filled.length, e, rfl, hnew⟩)
    · rcases h.cells q v hq with hzero | hdeleted | ⟨k, e', hk, hfilled⟩
      · exact .inl hzero
      · exact .inr (.inl hdeleted)
      · exact .inr (.inr ⟨k, e', hk, hold k e' hfilled⟩)
  · intro q q' k hk hq hq'
    rw [hget] at hq hq'
    split at hq
    · rename_i hpq
      split at hq'
      · rename_i hpq'
        exact hpq.symm.trans hpq'
      · rw [← Option.some.inj hq] at hq'
        exact absurd hq' (hunused q')
    · split at hq'
      · rw [← Option.some.inj hq'] at hq
        exact absurd hq (hunused q)
      · have hne : k ≠ filled.length := fun heq => hunused q (heq ▸ hq)
        exact h.once q q' k (by omega) hq hq'
  · intro k e' hk
    have hchain : ∀ (key : Name) (m : ℕ), t.index[cellAt existingHash t key m]? ≠ some 0 →
        (t.index.set p (t.usedCount + 1))[cellAt existingHash t key m]? ≠ some 0 := by
      intro key m hm
      rw [hget]
      split
      · exact fun heq => by cases Option.some.inj heq
      · exact hm
    by_cases hkl : k < filled.length
    · rw [List.getElem?_append_left hkl] at hk
      obtain ⟨m, hm, hindex, hfirst⟩ := h.placed k e' hk
      refine ⟨m, hm, ?_, fun m' hm' => hchain e'.key m' (hfirst m' hm')⟩
      change (t.index.set p (t.usedCount + 1))[cellAt existingHash t e'.key m]? = _
      rw [hget, if_neg fun heq => ?_]
      · exact hindex
      · rw [← heq, hempty] at hindex
        cases Option.some.inj hindex
    · have hkeq : k = filled.length := by
        have hlt := (List.getElem?_eq_some_iff.mp hk).1
        omega
      subst hkeq
      rw [hnew] at hk
      obtain rfl := Option.some.inj (Option.some.inj hk)
      refine ⟨n, hn, ?_, fun m' hm' => hchain e.key m' (hbefore m' hm')⟩
      change (t.index.set p (t.usedCount + 1))[cellAt existingHash t e.key n]? = _
      rw [hget, hp, if_pos rfl]

/-! ## Removing a value -/

omit h [DecidableEq Name] in
theorem reduceOption_set_none (hi : i < filled.length) : (filled.set i none).reduceOption =
      (filled.take i).reduceOption ++ (filled.drop (i + 1)).reduceOption := by
  rw [set_eq_take_append_cons_drop, if_pos hi, reduceOption_append, reduceOption_cons_of_none]

omit [DecidableEq Name] in
/-- A value is removed, and its cell of the index is marked. -/
theorem clear (hi : filled[i]? = some (some e)) (hp : t.index[p]? = some (i + 1)) :
    Stores existingHash { t with
      index := t.index.set p t.deletedEntryIndex
      table := t.table.set i .deleted
      keyCount := t.keyCount - 1
      deletedCount := t.deletedCount + 1 } (filled.set i none) := by
  have hlt : i < filled.length := (List.getElem?_eq_some_iff.mp hi).1
  obtain ⟨hcell, hvalue⟩ := List.getElem?_eq_some_iff.mp hp
  have hsplit := reduceOption_split hi
  have hle := h.length_le
  have hget : ∀ q, (t.index.set p t.deletedEntryIndex)[q]? =
      if p = q then some t.deletedEntryIndex else t.index[q]? := by
    intro q
    rw [List.getElem?_set]
    by_cases hpq : p = q
    · rw [if_pos hpq, if_pos hpq, if_pos hcell]
    · rw [if_neg hpq, if_neg hpq]
  have hkeep : ∀ k, k ≠ i → (filled.set i none)[k]? = filled[k]? := fun k hk =>
    List.getElem?_set_ne (Ne.symm hk)
  refine ⟨h.size, ?_, ?_, ?_, ?_, ?_, ?_, ?_, ?_, ?_, ?_⟩
  · rw [h.table_eq, set_append_left _ _ (by rwa [length_map]), map_set, length_set]
    rfl
  · rw [length_set]
    exact hle
  · rw [h.keyCount_eq, hsplit, reduceOption_set_none hlt, length_append, length_append]
    rfl
  · change t.keyCount - 1 + (t.deletedCount + 1) = _
    have hcount := h.usedCount_eq
    have hkeys := h.keyCount_eq
    rw [hsplit, length_append, length_cons] at hkeys
    rw [usedCount] at hcount
    rw [length_set]
    omega
  · have hnodup := h.keys_nodup
    rw [hsplit] at hnodup
    rw [reduceOption_set_none hlt]
    exact hnodup.sublist (((List.Sublist.refl _).append (sublist_cons_self _ _)).map _)
  · rw [length_set]
    exact h.index_length
  · rw [countP_set hcell, h.full_cells, hvalue]
    simp [deletedEntryIndex]
    omega
  · intro q v hq
    rw [hget] at hq
    split at hq
    · exact .inr (.inl (Option.some.inj hq).symm)
    · rename_i hpq
      rcases h.cells q v hq with hzero | hdeleted | ⟨k, e', rfl, hfilled⟩
      · exact .inl hzero
      · exact .inr (.inl hdeleted)
      · have hne : k ≠ i := by
          rintro rfl
          exact hpq (h.once p q k hlt hp hq)
        exact .inr (.inr ⟨k, e', rfl, (hkeep k hne).trans hfilled⟩)
  · intro q q' k hk hq hq'
    rw [length_set] at hk
    have hmarked : t.deletedEntryIndex ≠ k + 1 := by
      rw [deletedEntryIndex]
      omega
    rw [hget] at hq hq'
    split at hq
    · exact absurd (Option.some.inj hq) hmarked
    · split at hq'
      · exact absurd (Option.some.inj hq') hmarked
      · exact h.once q q' k hk hq hq'
  · intro k e' hk
    have hne : k ≠ i := by
      rintro rfl
      rw [List.getElem?_set_self hlt] at hk
      cases Option.some.inj hk
    rw [hkeep k hne] at hk
    obtain ⟨n, hn, hindex, hfirst⟩ := h.placed k e' hk
    refine ⟨n, hn, ?_, fun m hm => ?_⟩
    · change (t.index.set p t.deletedEntryIndex)[cellAt existingHash t e'.key n]? = _
      rw [hget, if_neg fun heq => ?_]
      · exact hindex
      · rw [← heq, hp] at hindex
        have hki := Option.some.inj hindex
        omega
    · rw [hget]
      split
      · exact fun heq => by cases Option.some.inj heq
      · exact hfirst m hm

end Stores

variable (Name Cell) in
/-- A new table holds nothing. -/
theorem stores_ofCapacity (hcapacity : capacity < 2 ^ 30) (deletedOffsets : List ℕ) :
    Stores existingHash (ofCapacity capacity deletedOffsets : PropertyHashTable Name Cell) [] ∧
      capacity < (ofCapacity capacity deletedOffsets : PropertyHashTable Name Cell).tableCapacity := by
  obtain ⟨j, hj, hj', hsize, hroom⟩ := sizeForCapacity_spec hcapacity
  have hempty : ∀ p v : ℕ, (ofCapacity capacity deletedOffsets :
      PropertyHashTable Name Cell).index[p]? = some v → v = 0 := by
    intro p v hp
    exact eq_of_mem_replicate (mem_of_getElem? hp)
  refine ⟨⟨⟨j, hj, hj', hsize⟩, ?_, zero_le _, rfl, rfl, nodup_nil, ?_, ?_, ?_, ?_, ?_⟩, ?_⟩
  · rfl
  · exact length_replicate
  · rw [countP_eq_zero.mpr, length_nil]
    intro v hv
    obtain ⟨p, hp⟩ := List.getElem?_of_mem hv
    rw [hempty p v hp]
    simp
  · exact fun p v hp => .inl (hempty p v hp)
  · intro p q i hi
    cases hi
  · intro i e hi
    cases hi
  · change capacity < sizeForCapacity capacity >>> 1
    rw [hsize]
    exact hroom

end PropertyHashTable

end JavaScriptCore
end WebKit
