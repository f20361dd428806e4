import WebKit.JavaScriptCore.PropertyHashIndex

/-!
# Runs of a property table

`Refines t table`: in memory is what the `PropertyTable` of the structures says, entries in the order
in which they were added.

* `Refines.add`, `Refines.remove`, `Refines.copy`: what the operations do, where every capacity they
  ask for is less than 2^30.
* `faithful_of_reachable`: what holds after every run.
* `not_faithful_hugeCopy`: a copy with a capacity of 2^30 has no index.
-/

namespace WebKit

open List
namespace JavaScriptCore

variable {Name Cell : Type*} [DecidableEq Name]

namespace PropertyHashTable

variable (existingHash : Name → UInt32)

/-- What is in memory is the table of the structures. -/
structure Refines (t : PropertyHashTable Name Cell) (table : PropertyTable Name Cell) : Prop where
  stores : ∃ filled, Stores existingHash t filled ∧ table.entries = filled.reduceOption
  deletedOffsets : t.deletedOffsets = table.deletedOffsets

variable {existingHash} {t : PropertyHashTable Name Cell} {table : PropertyTable Name Cell}
  {filled : List (Option (PropertyMapEntry Name Cell))}

variable (h : Stores existingHash t filled)

include h

omit [DecidableEq Name] in
theorem Refines.of_stores (hentries : table.entries = filled.reduceOption)
    (hoffsets : t.deletedOffsets = table.deletedOffsets) : Refines existingHash t table :=
  ⟨⟨filled, h, hentries⟩, hoffsets⟩

/-! ## Inserting into a new table -/

theorem Stores.reinsert
    (hroom : filled.length < t.tableCapacity) (hkey : ∀ e' ∈ filled.reduceOption, e'.key ≠ e.key) :
    ∃ t', t.reinsert existingHash e = some t' ∧ Stores existingHash t' (filled ++ [some e]) ∧
      t'.indexSize = t.indexSize ∧ t'.deletedOffsets = t.deletedOffsets := by
  obtain ⟨n, hn, hfind, hempty, hbefore⟩ := h.find_absent hkey
  obtain ⟨t', hinsert, h'⟩ := h.insertAt hroom hkey hn hempty hbefore
  refine ⟨t', ?_, h'⟩
  rw [PropertyHashTable.reinsert, hfind]
  exact hinsert

omit h in
/-- The entries are inserted one after another. -/
theorem Stores.reinsertAll : ∀ {entries : List (PropertyMapEntry Name Cell)}
    {t : PropertyHashTable Name Cell} {filled : List (Option (PropertyMapEntry Name Cell))},
    Stores existingHash t filled → filled.length + entries.length ≤ t.tableCapacity →
      ((filled.reduceOption ++ entries).map (·.key)).Nodup →
        ∃ t', entries.foldlM (PropertyHashTable.reinsert existingHash) t = some t' ∧
          Stores existingHash t' (filled ++ entries.map some) ∧ t'.indexSize = t.indexSize ∧
            t'.deletedOffsets = t.deletedOffsets
  | [], t, filled, h, _, _ => ⟨t, rfl, by rwa [map_nil, append_nil], rfl, rfl⟩
  | e :: entries, t, filled, h, hroom, hnodup => by
    rw [length_cons] at hroom
    have hkey : ∀ e' ∈ filled.reduceOption, e'.key ≠ e.key := by
      intro e' he'
      rw [map_append, nodup_append] at hnodup
      exact hnodup.2.2 _ (mem_map_of_mem he') _ mem_cons_self
    obtain ⟨t₁, hinsert, h₁, hsize₁, hoffsets₁⟩ := h.reinsert (by omega) hkey
    have hcapacity : t₁.tableCapacity = t.tableCapacity := congrArg (· >>> 1) hsize₁
    have hnodup₁ : (((filled ++ [some e]).reduceOption ++ entries).map (·.key)).Nodup := by
      rw [reduceOption_append, append_assoc]
      exact hnodup
    have hroom₁ : (filled ++ [some e]).length + entries.length ≤ t₁.tableCapacity := by
      rw [length_append, length_singleton]
      omega
    obtain ⟨t', hfold, h', hsize', hoffsets'⟩ := h₁.reinsertAll hroom₁ hnodup₁
    refine ⟨t', ?_, ?_, hsize'.trans hsize₁, hoffsets'.trans hoffsets₁⟩
    · rw [foldlM_cons, hinsert]
      exact hfold
    · rw [map_cons, ← singleton_append, ← append_assoc]
      exact h'

/-- A rehash keeps the entries and drops the removed values. -/
theorem Stores.rehash (hcapacity : capacity < 2 ^ 30) (hle : t.keyCount ≤ capacity) :
    ∃ t', t.rehash existingHash capacity = some t' ∧
      Stores existingHash t' (filled.reduceOption.map some) ∧
        t'.deletedOffsets = t.deletedOffsets ∧ capacity < t'.tableCapacity := by
  obtain ⟨hempty, hroom⟩ := stores_ofCapacity Name Cell existingHash hcapacity t.deletedOffsets
  have hfits : ([] : List (Option (PropertyMapEntry Name Cell))).length +
      filled.reduceOption.length ≤ (ofCapacity capacity t.deletedOffsets :
        PropertyHashTable Name Cell).tableCapacity := by
    rw [length_nil, Nat.zero_add, ← h.keyCount_eq]
    exact hle.trans hroom.le
  obtain ⟨t', hfold, h', hsize, hoffsets⟩ := hempty.reinsertAll hfits h.keys_nodup
  refine ⟨t', ?_, h', hoffsets, ?_⟩
  · rw [PropertyHashTable.rehash, h.entries_eq]
    exact hfold
  · exact hroom.trans_eq (congrArg (· >>> 1) hsize.symm)

omit h in
omit [DecidableEq Name] in
theorem reduceOption_map_some (entries : List (PropertyMapEntry Name Cell)) :
    (entries.map some).reduceOption = entries := by
  induction entries with
  | nil => rfl
  | cons e entries ih => rw [map_cons, reduceOption_cons_of_some, ih]

/-! ## The operations -/

omit [DecidableEq Name] in
theorem Stores.tableCapacity_le : t.tableCapacity ≤ 2 ^ 30 := by
  obtain ⟨j, -, hj, hsize⟩ := h.size
  have hpow : 2 ^ j ≤ 2 ^ 31 := Nat.pow_le_pow_right Nat.two_pos hj
  rw [tableCapacity]
  omega

omit [DecidableEq Name] in
/-- The entries before one have other keys. -/
theorem Stores.key_ne_of_before (hi : filled[i]? = some (some e)) :
    ∀ e' ∈ (filled.take i).reduceOption, e'.key ≠ e.key := by
  have hnodup := h.keys_nodup
  rw [Stores.reduceOption_split hi, map_append, nodup_append] at hnodup
  exact fun e' he' => hnodup.2.2 _ (mem_map_of_mem he') _ mem_cons_self

/-- The search in memory finds what the search in the list finds. -/
theorem Stores.find_cases (hentries : table.entries = filled.reduceOption) (key : Name) :
    (∃ i p e, t.find existingHash key = some (some i, p) ∧ t.index[p]? = some (i + 1) ∧
      filled[i]? = some (some e) ∧ e.key = key ∧ table.find key = some e) ∨
    (∃ p, t.find existingHash key = some (none, p)) ∧
      (∀ e ∈ filled.reduceOption, e.key ≠ key) ∧ table.find key = none := by
  unfold PropertyTable.find
  rw [hentries]
  by_cases hkey : ∃ e ∈ filled.reduceOption, e.key = key
  · obtain ⟨e, he, rfl⟩ := hkey
    obtain ⟨i, hi⟩ := Stores.mem_reduceOption.mp he
    obtain ⟨p, hfind, hp⟩ := h.find_present hi
    refine .inl ⟨i, p, e, hfind, hp, hi, rfl, ?_⟩
    refine List.find?_eq_some_iff_append.mpr ⟨decide_eq_true rfl, _, _,
      Stores.reduceOption_split hi, fun e' he' => ?_⟩
    simpa using h.key_ne_of_before hi e' he'
  · have hne : ∀ e ∈ filled.reduceOption, e.key ≠ key := fun e he heq => hkey ⟨e, he, heq⟩
    obtain ⟨n, -, hfind, -, -⟩ := h.find_absent hne
    refine .inr ⟨⟨_, hfind⟩, hne, List.find?_eq_none.mpr fun e he => ?_⟩
    simpa using hne e he

omit h

theorem Refines.add (h : Refines existingHash t table) (e : PropertyMapEntry Name Cell)
    (hcapacity : t.canInsert = true ∨ t.keyCount + 1 < 2 ^ 30) :
    ∃ t' added, t.add existingHash e = some (t', added) ∧
      Refines existingHash t' (table.add e) := by
  obtain ⟨filled, hstores, hentries⟩ := h.stores
  unfold PropertyHashTable.add PropertyTable.add
  rcases hstores.find_cases hentries e.key with
    ⟨i, p, e', hfind, -, -, -, hlist⟩ | ⟨-, hne, hlist⟩
  · -- an entry with the key is there already
    rw [hfind, hlist]
    exact ⟨t, false, rfl, h⟩
  · obtain ⟨n, hn, hfind, hempty, hbefore⟩ := hstores.find_absent hne
    rw [hfind, hlist]
    dsimp only
    cases hroom : t.canInsert with
    | true =>
      have hlt : filled.length < t.tableCapacity := by
        rw [← hstores.usedCount_eq]
        exact of_decide_eq_true hroom
      obtain ⟨t', hinsert, h', -, hoffsets⟩ := hstores.insertAt hlt hne hn hempty hbefore
      rw [hinsert]
      refine ⟨t', true, rfl, Refines.of_stores h' ?_ (hoffsets.trans h.deletedOffsets)⟩
      rw [reduceOption_append, hentries]
      rfl
    | false =>
      have hcount : t.keyCount + 1 < 2 ^ 30 := hcapacity.resolve_left (by rw [hroom]; decide)
      obtain ⟨t₁, hrehash, h₁, hoffsets₁, hroom₁⟩ := hstores.rehash hcount (Nat.le_succ t.keyCount)
      have hlt : (filled.reduceOption.map some).length < t₁.tableCapacity := by
        rw [length_map, ← hstores.keyCount_eq]
        omega
      obtain ⟨t', hinsert, h', -, hoffsets⟩ := h₁.reinsert hlt (by rwa [reduceOption_map_some])
      rw [Nat.mod_eq_of_lt (show t.keyCount + 1 < 2 ^ 32 by omega), hrehash]
      dsimp only
      rw [hinsert]
      refine ⟨t', true, rfl, Refines.of_stores h' ?_
        ((hoffsets.trans hoffsets₁).trans h.deletedOffsets)⟩
      rw [reduceOption_append, reduceOption_map_some, hentries]
      rfl

theorem Refines.remove (h : Refines existingHash t table) (key : Name) :
    ∃ t', t.remove existingHash key = some t' ∧ Refines existingHash t' (table.remove key) := by
  obtain ⟨filled, hstores, hentries⟩ := h.stores
  unfold PropertyHashTable.remove
  rcases hstores.find_cases hentries key with
    ⟨i, p, e, hfind, hp, hi, rfl, -⟩ | ⟨⟨p, hfind⟩, hne, -⟩
  · rw [hfind]
    have hlt : i < filled.length := (List.getElem?_eq_some_iff.mp hi).1
    have hcleared := hstores.clear hi hp
    have hlist : (table.remove e.key).entries = (filled.set i none).reduceOption := by
      rw [Stores.reduceOption_set_none hlt]
      change table.entries.eraseP _ = _
      rw [hentries, Stores.reduceOption_split hi, eraseP_append_right, eraseP_cons_of_pos]
      · exact decide_eq_true rfl
      · intro e' he'
        simpa using hstores.key_ne_of_before hi e' he'
    have htable : i < t.table.length := by
      rw [hstores.table_eq, length_append, length_map]
      omega
    have hplace : p < t.index.length ∧ i < t.table.length :=
      ⟨(List.getElem?_eq_some_iff.mp hp).1, htable⟩
    obtain ⟨t₁, ht₁⟩ : ∃ t₁ : PropertyHashTable Name Cell, t₁ = { t with
      index := t.index.set p t.deletedEntryIndex
      table := t.table.set i .deleted
      keyCount := t.keyCount - 1
      deletedCount := t.deletedCount + 1 } := ⟨_, rfl⟩
    have hremoved : t.removeAt existingHash (some i, p) =
        if t₁.deletedCount * 4 % 2 ^ 32 ≥ t₁.indexSize then t₁.rehash existingHash t₁.keyCount
        else some t₁ := by
      rw [ht₁]
      exact if_pos hplace
    rw [← ht₁] at hcleared
    dsimp only
    rw [hremoved]
    have hoffsets : t₁.deletedOffsets = table.deletedOffsets := ht₁ ▸ h.deletedOffsets
    have hdeleted : 0 < t₁.deletedCount := ht₁ ▸ Nat.succ_pos t.deletedCount
    split
    · have hcount : t₁.keyCount < 2 ^ 30 := by
        have hused := hcleared.usedCount_eq
        rw [usedCount] at hused
        have hle := hcleared.length_le
        have hcapacity := hcleared.tableCapacity_le
        omega
      obtain ⟨t', hrehash, h', hoffsets', -⟩ := hcleared.rehash hcount le_rfl
      refine ⟨t', hrehash, Refines.of_stores h' ?_ (hoffsets'.trans hoffsets)⟩
      rw [reduceOption_map_some]
      exact hlist
    · exact ⟨t₁, rfl, Refines.of_stores hcleared hlist hoffsets⟩
  · rw [hfind]
    have hsame : table.remove key = table := by
      unfold PropertyTable.remove
      rw [eraseP_of_forall_not fun e he => ?_]
      rw [hentries] at he
      simpa using hne e he
    rw [hsame]
    exact ⟨t, rfl, h⟩

theorem Refines.copy (h : Refines existingHash t table) {capacity : ℕ}
    (hcapacity : capacity < 2 ^ 30) (hle : t.keyCount ≤ capacity) :
    ∃ t', t.copy existingHash capacity = some t' ∧ Refines existingHash t' table := by
  unfold PropertyHashTable.copy
  split
  · exact ⟨t, rfl, h⟩
  · obtain ⟨filled, hstores, hentries⟩ := h.stores
    obtain ⟨t', hrehash, h', hoffsets, -⟩ := hstores.rehash hcapacity hle
    refine ⟨t', hrehash, Refines.of_stores h' ?_ (hoffsets.trans h.deletedOffsets)⟩
    rw [reduceOption_map_some, hentries]

/-! ## Runs -/

inductive Operation (Name Cell : Type*)
  | add (entry : PropertyMapEntry Name Cell)
  | remove (key : Name)
  | copy (newCapacity : ℕ)

namespace Operation

/-- The table afterwards; for `copy` it is the copy. -/
def run (existingHash : Name → UInt32) (t : PropertyHashTable Name Cell) :
    Operation Name Cell → Option (PropertyHashTable Name Cell)
  | add entry => (t.add existingHash entry).map Prod.fst
  | remove key => t.remove existingHash key
  | copy newCapacity => t.copy existingHash newCapacity

/-- What the operation is for a map that keeps the order of insertion. -/
def apply (table : PropertyTable Name Cell) : Operation Name Cell → PropertyTable Name Cell
  | add entry => table.add entry
  | remove key => table.remove key
  | copy _ => table

/-- A copy must have place for the entries. -/
def Allowed (t : PropertyHashTable Name Cell) : Operation Name Cell → Prop
  | add _ => True
  | remove _ => True
  | copy newCapacity => t.keyCount ≤ newCapacity

/-- The capacity that the operation asks for: `add` where there is no place left, and `copy`. -/
def requested (t : PropertyHashTable Name Cell) : Operation Name Cell → Option ℕ
  | add _ => if t.canInsert then none else some (t.keyCount + 1)
  | remove _ => none
  | copy newCapacity => some newCapacity

end Operation

/-- The tables that the operations make from a new one, with what they stand for, where each capacity
that is asked for fits. -/
inductive Reachable (existingHash : Name → UInt32) (fits : ℕ → Prop) :
    PropertyHashTable Name Cell → PropertyTable Name Cell → Prop
  | start {capacity : ℕ} (h : fits capacity) :
      Reachable existingHash fits (ofCapacity capacity []) {}
  | step {t t' table} (h : Reachable existingHash fits t table) (op : Operation Name Cell)
      (hallowed : op.Allowed t) (hfits : ∀ capacity ∈ op.requested t, fits capacity)
      (hrun : op.run existingHash t = some t') : Reachable existingHash fits t' (op.apply table)

/-- The table in memory behaves as the map. -/
structure Faithful (existingHash : Name → UInt32) (t : PropertyHashTable Name Cell)
    (table : PropertyTable Name Cell) : Prop where
  /-- Iteration ends before the guard, and yields each entry once in the order of insertion. -/
  entries : t.entries = some table.entries
  keys_nodup : (table.entries.map (·.key)).Nodup
  size : t.keyCount = table.size
  /-- The loop of `find` ends, with the entry of a key that is there and with null for another. -/
  find : ∀ key, ∃ r, t.find existingHash key = some r ∧ ((r.1 = none ∧ table.find key = none) ∨
      ∃ i e, r.1 = some i ∧ t.table[i]? = some (.entry e) ∧ table.find key = some e)
  /-- Some cell of the index is empty. -/
  exists_empty : ∃ p < t.indexSize, t.index[p]? = some emptyEntryIndex
  /-- No two cells are for the same entry. -/
  once : ∀ (p q i : ℕ) e, t.table[i]? = some (.entry e) → t.index[p]? = some (i + 1) →
    t.index[q]? = some (i + 1) → p = q

theorem Refines.faithful (h : Refines existingHash t table) : Faithful existingHash t table := by
  obtain ⟨filled, hstores, hentries⟩ := h.stores
  have hslot : ∀ (i : ℕ) e, t.table[i]? = some (.entry e) → i < filled.length := by
    intro i e hi
    by_contra hge
    have hlength : i < t.table.length := (List.getElem?_eq_some_iff.mp hi).1
    rw [hstores.table_eq, length_append, length_map, length_replicate] at hlength
    rw [hstores.table_of_ge (not_lt.mp hge) (by omega)] at hi
    cases Option.some.inj hi
  refine ⟨hstores.entries_eq.trans (congrArg some hentries.symm), hentries ▸ hstores.keys_nodup, ?_,
    fun key => ?_, hstores.exists_empty, fun p q i e hi hp hq => ?_⟩
  · rw [hstores.keyCount_eq, PropertyTable.size, hentries]
  · rcases hstores.find_cases hentries key with
      ⟨i, p, e, hfind, -, hi, -, hlist⟩ | ⟨⟨p, hfind⟩, -, hlist⟩
    · refine ⟨_, hfind, .inr ⟨i, e, rfl, ?_, hlist⟩⟩
      rw [hstores.table_of_lt (List.getElem?_eq_some_iff.mp hi).1, hi]
      rfl
    · exact ⟨_, hfind, .inl ⟨rfl, hlist⟩⟩
  · exact hstores.once p q i (hslot i e hi) hp hq

/-- What an operation keeps, and that it does not fail. -/
theorem Refines.run (h : Refines existingHash t table) {op : Operation Name Cell}
    (hallowed : op.Allowed t) (hfits : ∀ capacity ∈ op.requested t, capacity < 2 ^ 30) :
    ∃ t', op.run existingHash t = some t' ∧ Refines existingHash t' (op.apply table) := by
  cases op with
  | add e =>
    have hcapacity : t.canInsert = true ∨ t.keyCount + 1 < 2 ^ 30 := by
      cases hroom : t.canInsert with
      | true => exact .inl rfl
      | false => exact .inr (hfits _ (by simp [Operation.requested, hroom]))
    obtain ⟨t', added, hadd, h'⟩ := h.add e hcapacity
    refine ⟨t', ?_, h'⟩
    rw [Operation.run, hadd]
    rfl
  | remove key => exact h.remove key
  | copy capacity => exact h.copy (hfits capacity rfl) hallowed

/-- As long as every capacity asked for is less than 2^30, the table in memory behaves as the map
after any run, and no operation on it fails. -/
theorem faithful_of_reachable (existingHash : Name → UInt32) {t : PropertyHashTable Name Cell}
    {table : PropertyTable Name Cell} (h : Reachable existingHash (· < 2 ^ 30) t table) :
    Faithful existingHash t table ∧ ∀ op : Operation Name Cell, op.Allowed t →
      (∀ capacity ∈ op.requested t, capacity < 2 ^ 30) → ∃ t', op.run existingHash t = some t' := by
  have hrefines : Refines existingHash t table := by
    induction h with
    | start hcapacity =>
      exact Refines.of_stores (stores_ofCapacity Name Cell existingHash hcapacity []).1 rfl rfl
    | step _ op hallowed hfits hrun ih =>
      obtain ⟨t', hrun', h'⟩ := ih.run hallowed hfits
      rw [hrun] at hrun'
      obtain rfl := Option.some.inj hrun'
      exact h'
  refine ⟨hrefines.faithful, fun op hallowed hfits => ?_⟩
  obtain ⟨t', hrun, -⟩ := hrefines.run hallowed hfits
  exact ⟨t', hrun⟩

/-- A key that is removed and added again comes last. -/
theorem faithful_of_reachable_addAgain : ∃ t : PropertyHashTable ℕ Unit, Faithful (fun _ => 7) t
      { entries := [⟨2, 1, 0, none⟩, ⟨1, 0, 0, none⟩] } := by
  have h₀ : Reachable (fun _ : ℕ => 7) (· < 2 ^ 30) (ofCapacity 0 [])
      ({} : PropertyTable ℕ Unit) := .start (by decide)
  have h₁ := h₀.step (.add ⟨1, 0, 0, none⟩) trivial (by decide) rfl
  have h₂ := h₁.step (.add ⟨2, 1, 0, none⟩) trivial (by decide) rfl
  have h₃ := h₂.step (.remove 1) trivial (by decide) rfl
  have h₄ := h₃.step (.add ⟨1, 0, 0, none⟩) trivial (by decide) rfl
  exact ⟨_, (faithful_of_reachable _ h₄).1⟩

/-- In a copy of an empty table with a capacity of 2^30 the search reads outside of the index. -/
theorem not_faithful_hugeCopy :
    ¬ ∀ (existingHash : ℕ → UInt32) (t : PropertyHashTable ℕ Unit) (table : PropertyTable ℕ Unit),
      Reachable existingHash (· < 2 ^ 32) t table → Faithful existingHash t table := by
  intro hall
  have h₀ : Reachable (fun _ : ℕ => 7) (· < 2 ^ 32) (ofCapacity 0 [])
      ({} : PropertyTable ℕ Unit) := .start (by decide)
  have hcopy : (Operation.copy (2 ^ 30)).run (fun _ : ℕ => 7)
      (ofCapacity 0 [] : PropertyHashTable ℕ Unit) = some (ofCapacity (2 ^ 30) []) := by
    rfl
  have h₁ := h₀.step (.copy (2 ^ 30)) (Nat.zero_le _) (by
    decide) hcopy
  obtain ⟨r, hfind, -⟩ := (hall _ _ _ h₁).find 0
  cases hfind

end PropertyHashTable

end JavaScriptCore
end WebKit
