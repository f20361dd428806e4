import WebKit.JavaScriptCore.PropertyTables

/-!
# Structure transitions

One lemma per operation says that it keeps the invariant of the property tables, and a run follows by
induction.  An operation that rebuilds a property map does so rightly when no structure above the one
it rebuilds is pinned (`Rebuilds`); `addPropertyTransition` must find the map of its structure in
place, which its callers see to by asking for the property first.
-/

namespace WebKit

open List
namespace JavaScriptCore

open Attributes DictionaryKind

variable {Name Cell : Type*}

/-! ## Rebuilding -/

section Rebuild

variable {h : Structures Name Cell} {s : Structure Name Cell} {i : StructureID}
  {v : List (Property Name)}

/-- Going up from `previous` one comes to a pinned structure. -/
inductive PinnedAbove (h : Structures Name Cell) : Option StructureID → Prop
  | here {p : StructureID} {s : Structure Name Cell} (cell : h[p]? = some s)
      (pinned : s.isPinnedPropertyTable = true) : PinnedAbove h (some p)
  | above {p : StructureID} {s : Structure Name Cell} (cell : h[p]? = some s)
      (rest : PinnedAbove h s.previous) : PinnedAbove h (some p)

theorem not_pinnedAbove_none : ¬ PinnedAbove h none := nofun

theorem not_pinnedAbove_some (hs : h[p]? = some s)
    (hpin : s.isPinnedPropertyTable = false) (hp : ¬ PinnedAbove h s.previous) :
    ¬ PinnedAbove h (some p) := by
  intro habove
  cases habove with
  | here cell pinned =>
    obtain rfl := Option.some.inj (hs.symm.trans cell)
    exact absurd (hpin.symm.trans pinned) Bool.false_ne_true
  | above cell rest =>
    obtain rfl := Option.some.inj (hs.symm.trans cell)
    exact hp rest

/-- The map of `s` is there, or nothing above `s` is pinned. -/
def Rebuilds (h : Structures Name Cell) (s : Structure Name Cell) : Prop :=
  s.propertyTable = none → ¬ PinnedAbove h s.previous

namespace Structure

theorem previousStructures_base (fuel : ℕ) {previous : Option StructureID}
    (hp : ¬ PinnedAbove h previous) : (previousStructures h fuel previous).2 = none := by
  induction fuel generalizing previous with
  | zero => rfl
  | succ fuel ih =>
    unfold previousStructures
    cases previous with
    | none => rfl
    | some p =>
      split
      · rfl
      · rename_i s hs
        rw [if_neg fun hpin => hp (.here hs hpin)]
        exact ih fun habove => hp (.above hs habove)

theorem previousStructures_eq (hs : h[p]? = some s)
    (hpin : s.isPinnedPropertyTable = false) (fuel : ℕ) :
    (previousStructures h (fuel + 1) (some p)).1
      = s :: (previousStructures h fuel s.previous).1 := by
  rw [previousStructures, Option.bind_some, hs]
  simp only [hpin, Bool.false_eq_true, if_false]

variable [DecidableEq Name]

/-- The entries that the loop adds for `s` and the structures above it. -/
def rebuilt (h : Structures Name Cell) (fuel : ℕ) (s : Structure Name Cell) :
    PropertyTable Name Cell :=
  (s :: (previousStructures h fuel s.previous).1).dropLast.reverse.foldl addPreviousEntry {}

/-- Without a pinned structure above, the loop adds what the structure declares. -/
theorem rebuilt_spec (hv : Declares h i v) (hs : h[i]? = some s)
    (hpin : s.isPinnedPropertyTable = false) (habove : ¬ PinnedAbove h s.previous) {fuel : ℕ}
    (hfuel : i ≤ fuel) :
    (rebuilt h fuel s).properties = v ∧ (rebuilt h fuel s).deletedOffsets = [] := by
  induction hv generalizing s fuel with
  | root cell unpinned previous offset =>
    obtain rfl := Option.some.inj (cell.symm.trans hs)
    unfold rebuilt
    rw [previous]
    cases fuel <;> exact ⟨rfl, rfl⟩
  | pinned cell pinned =>
    obtain rfl := Option.some.inj (cell.symm.trans hs)
    exact absurd (hpin.symm.trans pinned) Bool.false_ne_true
  | @child i p s' v name cell unpinned previous lt above nameInPrevious fresh offset ih =>
    obtain rfl := Option.some.inj (cell.symm.trans hs)
    obtain ⟨fuel, rfl⟩ := Nat.exists_eq_add_of_lt (lt.trans_le hfuel)
    obtain ⟨sp, hsp⟩ : ∃ sp, h[p]? = some sp := by cases above <;> exact ⟨_, ‹_›⟩
    rw [previous] at habove
    have hunpinned : sp.isPinnedPropertyTable = false := by
      rw [← Bool.not_eq_true]
      exact fun hpinned => habove (.here hsp hpinned)
    obtain ⟨hproperties, hdeleted⟩ := ih hsp hunpinned (fun hrest => habove (.above hsp hrest))
      (Nat.le_add_right p fuel)
    have hsplit : rebuilt h (p + fuel + 1) s' = addPreviousEntry (rebuilt h (p + fuel) sp) s' := by
      unfold rebuilt
      rw [previous, previousStructures_eq hsp hunpinned, dropLast_cons_of_ne_nil
        (cons_ne_nil _ _), reverse_cons, foldl_append]
      rfl
    have hfind : (rebuilt h (p + fuel) sp).find name = none := by
      rw [PropertyTable.find_eq_none_iff, hproperties]
      exact fresh
    rw [hsplit]
    unfold addPreviousEntry
    rw [nameInPrevious, offset]
    rw [PropertyTable.properties_add hfind, PropertyTable.deletedOffsets_add, hproperties]
    exact ⟨rfl, hdeleted⟩

@[simp] theorem materializePropertyMapIfNecessary_dictionaryKind (h : Structures Name Cell)
    (s : Structure Name Cell) :
    (materializePropertyMapIfNecessary h s).dictionaryKind = s.dictionaryKind := by
  unfold materializePropertyMapIfNecessary
  split <;> rfl

/-- A structure with its map rebuilt may stand in its place. -/
theorem materializePropertyMapIfNecessary_spec (hinv : Invariant h) (hs : h[i]? = some s)
    (hr : Rebuilds h s) :
    Keeps s (materializePropertyMapIfNecessary h s)
      ∧ (Pinned (materializePropertyMapIfNecessary h s)
        ∨ ∃ v, Unpinned h i (materializePropertyMapIfNecessary h s) v) := by
  unfold materializePropertyMapIfNecessary
  by_cases hnecessary : (s.propertyTable.isNone && s.previous.isSome) = true
  · rw [if_pos hnecessary]
    have hnone : s.propertyTable = none :=
      Option.isNone_iff_eq_none.mp (Bool.and_eq_true_iff.mp hnecessary).1
    rcases hinv i s hs with hpinned | ⟨v, hunpinned⟩
    · obtain ⟨t, ht, -⟩ := hpinned.table
      cases hnone.symm.trans ht
    · have habove := hr hnone
      have hfuel : i ≤ h.length := (List.getElem?_eq_some_iff.mp hs).1.le
      obtain ⟨hproperties, hdeleted⟩ :=
        rebuilt_spec hunpinned.declares hs hunpinned.unpinned habove hfuel
      have htable : (materializePropertyMap h s).propertyTable = some (rebuilt h h.length s) := by
        unfold materializePropertyMap rebuilt
        simp only [previousStructures_base h.length habove, Option.getD_none]
      refine ⟨{ Keeps.refl s with
        table := fun _ hpin => absurd (hunpinned.unpinned.symm.trans hpin) Bool.false_ne_true },
        .inr ⟨v, { hunpinned with table := ?_ }⟩⟩
      intro t ht
      obtain rfl := Option.some.inj (htable.symm.trans ht)
      exact ⟨hproperties, hdeleted⟩
  · rw [if_neg hnecessary]
    exact ⟨.refl s, hinv i s hs⟩

end Structure

end Rebuild

/-! ## Pinned structures -/

section Pinned

open Structure

variable {h : Structures Name Cell} {s s' : Structure Name Cell} {i : StructureID}

theorem Pinned.congr (hs : Pinned s) (hpinned : s'.isPinnedPropertyTable = s.isPinnedPropertyTable)
    (hprevious : s'.previous = s.previous) (htable : s'.propertyTable = s.propertyTable)
    (hkind : s'.dictionaryKind = s.dictionaryKind) : Pinned s' := by
  refine ⟨hpinned.trans hs.pinned, hprevious.trans hs.previous, ?_⟩
  rw [htable, hkind]
  exact hs.table

/-- Writing entries without their offsets. -/
theorem Pinned.modifyTable (hs : Pinned s)
    (ho : ∀ t, (f t).offsets = t.offsets) (hd : ∀ t, (f t).deletedOffsets = t.deletedOffsets) :
    Pinned (s.modifyTable f) := by
  obtain ⟨t, ht, hexact, hdeleted⟩ := hs.table
  refine ⟨hs.pinned, hs.previous, f t, ?_, hexact.congr (ho t) (hd t), ?_⟩
  · show s.propertyTable.map f = _
    rw [ht, Option.map_some]
  · rw [hd]
    exact hdeleted

/-- What sealing and freezing do to the new cell. -/
theorem Pinned.preventExtensions (hs : Pinned s)
    (ho : ∀ e, (g e).offset = e.offset) :
    Pinned (Structure.modifyTable { s with preventExtensions := true } (·.modifyAll g)) := by
  have hprevent : Pinned { s with preventExtensions := true } := hs.congr rfl rfl rfl rfl
  exact hprevent.modifyTable (PropertyTable.offsets_modifyAll ho) fun _ => rfl

theorem Pinned.withKind (hs : Pinned s) {kind : DictionaryKind}
    (hk : kind = uncachedDictionaryKind ∨ s.dictionaryKind ≠ uncachedDictionaryKind) :
    Pinned { s with dictionaryKind := kind } := by
  obtain ⟨t, ht, hexact, hdeleted⟩ := hs.table
  refine ⟨hs.pinned, hs.previous, t, ht, hexact, ?_⟩
  intro hne
  exact hdeleted (hk.resolve_left hne)

theorem Pinned.growIfExceeded (hs : Pinned s) : Pinned s.growIfExceeded := by
  unfold Structure.growIfExceeded growPropertyStorageCapacity
  split
  · split <;> exact hs.congr rfl rfl rfl rfl
  · exact hs

theorem Pinned.flattenDictionaryStructure (hs : Pinned s) :
    Pinned s.flattenDictionaryStructure := by
  obtain ⟨t, ht, hexact, hdeleted⟩ := hs.table
  unfold Structure.flattenDictionaryStructure
  by_cases huncacheable : s.isUncacheableDictionary = true
  · refine ⟨?_, ?_, PropertyTable.clearDeletedOffsets
      { t with entries := t.entries.mapIdx fun i e => { e with offset := i } }, ?_, ?_, ?_⟩
    · rw [if_pos huncacheable]
      exact hs.pinned
    · rw [if_pos huncacheable]
      exact hs.previous
    · rw [if_pos huncacheable]
      show s.propertyTable.map _ = _
      rw [ht, Option.map_some]
    · exact PropertyTable.exact_flattened t
    · exact fun _ => rfl
  · rw [if_neg huncacheable]
    refine hs.withKind (.inr fun hkind => huncacheable ?_)
    exact decide_eq_true hkind

section

variable (hinv : Invariant h) (hs : h[i]? = some s) (hd : s.dictionaryKind ≠ noneDictionaryKind)
include hd hinv hs

/-- Writing a dictionary in place. -/
theorem Invariant.advances_dictionary (hnew : Pinned s') : Advances h (h.set i s') :=
  hinv.set hs (.of_dictionary hd fun _ => hnew.pinned) (.inl hnew)

/-- A dictionary is pinned. -/
theorem Invariant.pinned_of_dictionary : Pinned s := by
  rcases hinv i s hs with hpinned | ⟨v, hunpinned⟩
  · exact hpinned
  · exact absurd hunpinned.kind hd

end

section Keys

variable [DecidableEq Name] {name : Name}

/-- The property map with one more property. -/
theorem Structure.putSpecificValue_spec (s : Structure Name Cell) (name : Name)
    (attributes : Attributes) (specificValue : Option Cell) (hfind : (s.propertyTable.getD {}).find name = none) :
    ∃ b t, (s.putSpecificValue name attributes specificValue).1
        = { s with hasNonEnumerableProperties := b, propertyTable := some t }
      ∧ ((s.propertyTable.getD {}).Exact → t.Exact)
      ∧ ((s.propertyTable.getD {}).deletedOffsets = [] → t.deletedOffsets = []
        ∧ t.properties = (s.propertyTable.getD {}).properties
          ++ [(name, (s.propertyTable.getD {}).size, attributes)]
        ∧ (s.putSpecificValue name attributes specificValue).2
          = (s.propertyTable.getD {}).size) := by
  unfold putSpecificValue
  refine ⟨(s.noteAttributes attributes).hasNonEnumerableProperties, _, ?_,
    fun hexact => hexact.add_takeOffset hfind attributes specificValue, ?_⟩
  · unfold noteAttributes
    split <;> rfl
  · intro hdeleted
    have htake := PropertyTable.takeOffset_of_nil hdeleted
    refine ⟨?_, ?_, congrArg Prod.fst htake⟩
    · rw [PropertyTable.deletedOffsets_add, htake]
      exact hdeleted
    · rw [htake]
      exact PropertyTable.properties_add hfind

theorem Pinned.putSpecificValue (hs : Pinned s) (attributes : Attributes)
    (specificValue : Option Cell) (hfind : (s.propertyTable.getD {}).find name = none) :
    Pinned (s.putSpecificValue name attributes specificValue).1 := by
  obtain ⟨t, ht, hexact, hdeleted⟩ := hs.table
  obtain ⟨b, t', heq, hexact', hfresh⟩ :=
    Structure.putSpecificValue_spec s name attributes specificValue hfind
  rw [ht] at hexact' hfresh
  rw [heq]
  exact ⟨hs.pinned, hs.previous, t', rfl, hexact' hexact, fun hk => (hfresh (hdeleted hk)).1⟩

theorem Pinned.remove (hs : Pinned s) (hk : s.dictionaryKind = uncachedDictionaryKind)
    (name : Name) :
    Pinned (s.remove name).1 := by
  obtain ⟨t, ht, hexact, -⟩ := hs.table
  unfold Structure.remove
  simp only [ht]
  cases he : t.find name with
  | none => exact hs
  | some e =>
    exact ⟨hs.pinned, hs.previous, _, rfl, hexact.remove he, fun hne => absurd hk hne⟩

/-- What a pinning transition starts from. -/
theorem pinned_pinnedCopy (hinv : Invariant h) (hs : h[i]? = some s) (hr : Rebuilds h s) :
    Pinned (Structures.pinnedCopy h s) := by
  obtain ⟨hkeeps, hcell⟩ := materializePropertyMapIfNecessary_spec hinv hs hr
  have hadvances := hinv.set hs hkeeps hcell
  have hs' : (h.set i (materializePropertyMapIfNecessary h s))[i]?
      = some (materializePropertyMapIfNecessary h s) :=
    List.getElem?_set_self (List.getElem?_eq_some_iff.mp hs).1
  refine ⟨rfl, rfl, _, rfl, ?_⟩
  unfold copyPropertyTableForPinning
  cases ht : (materializePropertyMapIfNecessary h s).propertyTable with
  | none => exact ⟨PropertyTable.exact_empty, fun _ => rfl⟩
  | some t =>
    refine ⟨hadvances.1.exact hs' ht, ?_⟩
    intro hk
    refine hadvances.1.deletedOffsets hs' ht ?_
    rw [materializePropertyMapIfNecessary_dictionaryKind]
    exact hk

/-- Rebuilding the map of a structure and allocating a pinned one. -/
theorem Invariant.advances_pinned (hinv : Invariant h) (hs : h[i]? = some s) (hr : Rebuilds h s)
    (hnew : Pinned s') :
    Advances h (h.set i (materializePropertyMapIfNecessary h s) ++ [s']) := by
  obtain ⟨hkeeps, hcell⟩ := materializePropertyMapIfNecessary_spec hinv hs hr
  have hadvances := hinv.set hs hkeeps hcell
  exact hadvances.trans (hadvances.1.append (.inl hnew))

end Keys

end Pinned

/-! ## Writing cells -/

section Cells

open Structure

variable {h : Structures Name Cell} {s : Structure Name Cell} {i : StructureID}

/-- Writing through a pointer. -/
theorem modify_eq_set (hs : h[i]? = some s) (f : Structure Name Cell → Structure Name Cell) :
    h.modify i f = h.set i (f s) := by
  refine ext_getElem? fun j => ?_
  rw [List.getElem?_modify]
  by_cases hij : i = j
  · subst hij
    simp only [if_true]
    rw [hs, List.getElem?_set_self (List.getElem?_eq_some_iff.mp hs).1]
    rfl
  · simp only [if_neg hij, List.getElem?_set_ne hij, Option.map_eq_map, Option.map_id']

/-- Writing the cell that was allocated last. -/
theorem modify_append_length (l : Structures Name Cell) (x : Structure Name Cell)
    (f : Structure Name Cell → Structure Name Cell) :
    (l ++ [x]).modify l.length f = l ++ [f x] := by
  induction l with
  | nil => rfl
  | cons y l ih => exact congrArg (y :: ·) ih

theorem growIfExceeded_eq (s : Structure Name Cell) :
    ∃ c, s.growIfExceeded = { s with propertyStorageCapacity := c } := by
  unfold growIfExceeded growPropertyStorageCapacity
  split
  · split <;> exact ⟨_, rfl⟩
  · exact ⟨s.propertyStorageCapacity, rfl⟩

section

variable (hinv : Invariant h) (hs : h[i]? = some s)
include hinv hs

theorem Invariant.advances_flattenDictionaryStructure (hd : s.isDictionary = true) :
    Advances h (h.modify i Structure.flattenDictionaryStructure) := by
  have hkind := of_decide_eq_true hd
  rw [modify_eq_set hs]
  exact hinv.advances_dictionary hs hkind
    (hinv.pinned_of_dictionary hs hkind).flattenDictionaryStructure

/-- What a structure that is no dictionary declares is what its map has. -/
theorem Invariant.declares_table (hd : s.dictionaryKind = noneDictionaryKind)
    (hmap : s.propertyTable = none → s.previous = none) :
    Declares h i (s.propertyTable.getD {}).properties
      ∧ (s.propertyTable.getD {}).deletedOffsets = [] := by
  rcases hinv i s hs with hpinned | ⟨v, hunpinned⟩
  · obtain ⟨t, ht, -, hdeleted⟩ := hpinned.table
    rw [ht]
    refine ⟨.pinned hs hpinned.pinned hd ht, hdeleted ?_⟩
    rw [hd]
    decide
  · cases ht : s.propertyTable with
    | some t =>
      obtain ⟨rfl, hdeleted⟩ := hunpinned.table t ht
      exact ⟨hunpinned.declares, hdeleted⟩
    | none =>
      refine ⟨?_, rfl⟩
      have hprevious := hmap ht
      cases hunpinned.declares with
      | root cell unpinned previous offset => exact .root cell unpinned previous offset
      | pinned cell pinned kind table =>
        obtain rfl := Option.some.inj (hs.symm.trans cell)
        cases ht.symm.trans table
      | child cell unpinned previous =>
        obtain rfl := Option.some.inj (hs.symm.trans cell)
        cases hprevious.symm.trans previous

/-- The map of a structure goes to its transition, unless it is pinned. -/
theorem Invariant.advances_handOver (table : StructureTransitionTable Name) :
    Advances h (h.set i { s with
      propertyTable := if s.isPinnedPropertyTable then s.propertyTable else none
      transitionTable := table }) := by
  have hkeeps : Keeps s { s with
      propertyTable := if s.isPinnedPropertyTable then s.propertyTable else none
      transitionTable := table } :=
    { Keeps.refl s with table := fun _ hp => if_pos hp }
  refine hinv.set hs hkeeps ?_
  rcases hinv i s hs with hpinned | ⟨v, hunpinned⟩
  · exact .inl (hpinned.congr rfl rfl (if_pos hpinned.pinned) rfl)
  · refine .inr ⟨v, { hunpinned with table := ?_ }⟩
    intro t ht
    rw [hunpinned.unpinned] at ht
    cases ht

/-- The offsets of the properties that a structure which is no dictionary declares. -/
theorem Invariant.offsets_table (hdeleted : (s.propertyTable.getD {}).deletedOffsets = []) :
    ((s.propertyTable.getD {}).properties.map (·.2.1)).Perm
      (List.range (s.propertyTable.getD {}).properties.length) := by
  refine (PropertyTable.exact_iff_of_deletedOffsets_eq_nil hdeleted).mp ?_
  cases ht : s.propertyTable with
  | none => exact PropertyTable.exact_empty
  | some t => exact hinv.exact hs ht

end

end Cells

/-! ## One lemma per operation -/

section Operations

open Structure Structures

variable [DecidableEq Name] {h : Structures Name Cell} {s : Structure Name Cell} {i : StructureID}
  {name : Name}

theorem pinnedTransition_eq (hs : h[i]? = some s) (f : Structure Name Cell → Structure Name Cell) :
    pinnedTransition h i f
      = (h.set i (materializePropertyMapIfNecessary h s) ++ [f (pinnedCopy h s)], h.length) := by
  unfold pinnedTransition
  rw [hs]

variable {f : Structure Name Cell → Structure Name Cell} {attributes : Attributes}

section

variable (hinv : Invariant h) (hs : h[i]? = some s) (hr : Rebuilds h s)
include hinv hr hs

/-- A pinning transition whose own part keeps the table exact. -/
theorem Invariant.advances_pinnedTransition
    (hf : ∀ x, Pinned x → x.dictionaryKind = s.dictionaryKind → Pinned (f x)) :
    Advances h (pinnedTransition h i f).1 := by
  rw [pinnedTransition_eq hs]
  exact hinv.advances_pinned hs hr (hf _ (pinned_pinnedCopy hinv hs hr) rfl)

/-- A pinning transition after which the new cell is written once more. -/
theorem Invariant.advances_modify_pinnedTransition
    (hf : ∀ x, Pinned x → x.dictionaryKind = s.dictionaryKind → Pinned (g (f x))) :
    Advances h ((pinnedTransition h i f).1.modify (pinnedTransition h i f).2 g) := by
  rw [pinnedTransition_eq hs]
  have hlength : h.length = (h.set i (materializePropertyMapIfNecessary h s)).length :=
    length_set.symm
  rw [hlength, modify_append_length]
  exact hinv.advances_pinned hs hr (hf _ (pinned_pinnedCopy hinv hs hr) rfl)

theorem Invariant.advances_toDictionaryTransition {kind : DictionaryKind}
    (hk : kind = uncachedDictionaryKind ∨ s.dictionaryKind ≠ uncachedDictionaryKind) :
    Advances h (toDictionaryTransition h i kind).1 := by
  refine hinv.advances_pinnedTransition hs hr fun x hx hkind => hx.withKind ?_
  rw [hkind]
  exact hk

theorem Invariant.advances_preventExtensionsTransition : Advances h
    (preventExtensionsTransition h i).1 :=
  hinv.advances_pinnedTransition hs hr fun _ hx _ => hx.congr rfl rfl rfl rfl

theorem Invariant.advances_sealTransition : Advances h (sealTransition h i).1 := by
  exact hinv.advances_modify_pinnedTransition hs hr fun x hx _ => hx.preventExtensions fun _ => rfl

theorem Invariant.advances_freezeTransition : Advances h (freezeTransition h i).1 := by
  exact hinv.advances_modify_pinnedTransition hs hr fun x hx _ => hx.preventExtensions fun _ => rfl

theorem Invariant.advances_despecifyFunctionTransition : Advances h
    (despecifyFunctionTransition h i name).1 := by
  refine hinv.advances_pinnedTransition hs hr fun x hx _ => ?_
  have hcount : Pinned { x with
    specificFunctionThrashCount := x.specificFunctionThrashCount + 1 } := hx.congr rfl rfl rfl rfl
  simp only
  split
  · exact hcount.modifyTable (PropertyTable.offsets_modifyAll fun _ => rfl) fun _ => rfl
  · exact hcount.modifyTable
      (fun t => PropertyTable.offsets_modify (by intro e; rfl) t name) fun _ => rfl

/-- Changing attributes: of the new cell, or in place in an uncacheable dictionary. -/
theorem Invariant.advances_attributeChangeTransition (attributes : Attributes) :
    Advances h (attributeChangeTransition h i name attributes).1 := by
  have hwrite : ∀ x : Structure Name Cell, Pinned x → Pinned (x.modifyTable fun t =>
      t.modify name fun e => { e with attributes := attributes }) := fun x hx =>
    hx.modifyTable (fun t => PropertyTable.offsets_modify (by intro e; rfl) t name) fun _ => rfl
  unfold attributeChangeTransition
  simp only [hs]
  by_cases huncacheable : s.isUncacheableDictionary = true
  · simp only [if_pos huncacheable]
    have hkind : s.dictionaryKind ≠ noneDictionaryKind := by
      rw [of_decide_eq_true huncacheable]
      decide
    rw [modify_eq_set hs]
    exact hinv.advances_dictionary hs hkind (hwrite s (hinv.pinned_of_dictionary hs hkind))
  · simp only [if_neg huncacheable]
    exact hinv.advances_modify_pinnedTransition hs hr fun x hx _ => hwrite x hx

end

/-- Looking a property up in a structure with its map, or with nothing above it. -/
theorem find_of_get_eq_none (hget : get h s name = none)
    (hmap : s.propertyTable = none → s.previous = none) :
    (s.propertyTable.getD {}).find name = none := by
  have hsame : materializePropertyMapIfNecessary h s = s := by
    refine if_neg fun hnecessary => ?_
    obtain ⟨hnone, hsome⟩ := Bool.and_eq_true_iff.mp hnecessary
    rw [hmap (Option.isNone_iff_eq_none.mp hnone)] at hsome
    cases hsome
  unfold Structure.get at hget
  rw [hsame] at hget
  cases ht : s.propertyTable with
  | none => rfl
  | some t =>
    rw [ht] at hget
    exact hget

theorem find_pinnedCopy (hget : get h s name = none) :
    ((pinnedCopy h s).propertyTable.getD {}).find name = none := by
  show (copyPropertyTableForPinning (materializePropertyMapIfNecessary h s)).find name = none
  unfold copyPropertyTableForPinning
  unfold Structure.get at hget
  cases ht : (materializePropertyMapIfNecessary h s).propertyTable with
  | none => rfl
  | some t =>
    rw [ht] at hget
    exact hget

theorem Pinned.materialized (hs : Pinned s) :
    materializePropertyMapIfNecessaryForPinning h s = s := by
  obtain ⟨t, ht, -⟩ := hs.table
  unfold materializePropertyMapIfNecessaryForPinning
  rw [ht]
  rfl

theorem Invariant.advances_addPropertyWithoutTransition (hinv : Invariant h) (hs : h[i]? = some s)
    (hd : s.isDictionary = true) (hget : get h s name = none) (attributes : Attributes)
    (specificValue : Option Cell) :
    Advances h (addPropertyWithoutTransition h i name attributes specificValue).1 := by
  have hkind := of_decide_eq_true hd
  have hpinned := hinv.pinned_of_dictionary hs hkind
  obtain ⟨t, ht, -⟩ := hpinned.table
  have hfind := find_of_get_eq_none hget fun hnone => nomatch hnone.symm.trans ht
  have hpin : Pinned s.pin := ⟨rfl, rfl, hpinned.table⟩
  unfold addPropertyWithoutTransition
  simp only [hs, hpinned.materialized]
  exact hinv.advances_dictionary hs hkind
    (hpin.putSpecificValue attributes _ hfind).growIfExceeded

theorem Invariant.advances_removePropertyWithoutTransition (hinv : Invariant h)
    (hs : h[i]? = some s) (hd : s.isUncacheableDictionary = true) :
    Advances h (removePropertyWithoutTransition h i name).1 := by
  have huncached := of_decide_eq_true hd
  have hkind : s.dictionaryKind ≠ noneDictionaryKind := by
    rw [huncached]
    decide
  have hpinned := hinv.pinned_of_dictionary hs hkind
  have hpin : Pinned s.pin := ⟨rfl, rfl, hpinned.table⟩
  unfold removePropertyWithoutTransition
  simp only [hs, hpinned.materialized]
  exact hinv.advances_dictionary hs hkind (hpin.remove huncached name)

/-- The new cell of a pinning transition, written in a step of its own. -/
theorem set_pinnedTransition (hs : h[i]? = some s) (f : Structure Name Cell → Structure Name Cell)
    (x : Structure Name Cell) :
    (pinnedTransition h i f).1[(pinnedTransition h i f).2]? = some (f (pinnedCopy h s))
      ∧ (pinnedTransition h i f).1.set (pinnedTransition h i f).2 x
        = h.set i (materializePropertyMapIfNecessary h s) ++ [x] := by
  rw [pinnedTransition_eq hs]
  have hlength : h.length = (h.set i (materializePropertyMapIfNecessary h s)).length :=
    length_set.symm
  rw [hlength]
  constructor
  · rw [List.getElem?_append_right le_rfl, Nat.sub_self]
    rfl
  · rw [set_append_right _ _ le_rfl, Nat.sub_self]
    rfl

theorem Invariant.advances_removePropertyTransition (hinv : Invariant h) (hs : h[i]? = some s)
    (hr : Rebuilds h s) : Advances h (removePropertyTransition h i name).1 := by
  unfold removePropertyTransition toUncacheableDictionaryTransition toDictionaryTransition
  obtain ⟨hcell, -⟩ := set_pinnedTransition hs
    (fun transition => { transition with dictionaryKind := uncachedDictionaryKind }) s
  simp only [hcell]
  rw [(set_pinnedTransition hs _ _).2]
  have hpinned : Pinned { pinnedCopy h s with dictionaryKind := uncachedDictionaryKind } :=
    (pinned_pinnedCopy hinv hs hr).withKind (.inl rfl)
  exact hinv.advances_pinned hs hr (hpinned.remove rfl name)

/-- Beyond the flags up to `accessor` an attribute word is empty, so the seven bits of
`m_attributesInPrevious` hold it. -/
theorem setWidth_attributes (ha : attributes.toNat < 64) :
    (attributes.setWidth 7).setWidth 32 = attributes := by
  apply BitVec.eq_of_toNat_eq
  rw [BitVec.toNat_setWidth, BitVec.toNat_setWidth]
  omega

/-- The table of a transition starts with the properties of its structure. -/
theorem transitionPropertyTable_eq (hmap : s.propertyTable = none → s.previous = none) :
    transitionPropertyTable h s x = some (s.propertyTable.getD {}) := by
  unfold transitionPropertyTable
  cases ht : s.propertyTable with
  | some t => rfl
  | none =>
    rw [hmap ht]
    rfl

/-- The new structure declares one property more than the old one. -/
theorem Invariant.advances_transition (hinv : Invariant h) (hs : h[i]? = some s)
    (hd : s.dictionaryKind = noneDictionaryKind)
    (hmap : s.propertyTable = none → s.previous = none) (hget : get h s name = none) (ha : attributes.toNat < 64) (specificValue : Option Cell)
    {x s' : Structure Name Cell} {put : Structure Name Cell × ℕ}
    {table : StructureTransitionTable Name}
    (hs' : s' = { s with
      propertyTable := if s.isPinnedPropertyTable then s.propertyTable else none
      transitionTable := table })
    (hput : put = Structure.putSpecificValue { s.createFrom with
        previous := some i
        nameInPrevious := some name
        attributesInPrevious := attributes.setWidth 7
        specificValueInPrevious := specificValue
        propertyTable := some (s.propertyTable.getD {}) } name attributes specificValue)
    (hx : x = { put.1.growIfExceeded with offset := some put.2 }) :
    Advances h (h.set i s' ++ [x]) := by
  obtain ⟨hdeclares, hdeleted⟩ := hinv.declares_table hs hd hmap
  have hoffsets := hinv.offsets_table hs hdeleted
  have hfind := find_of_get_eq_none hget hmap
  have hhandOver := hinv.advances_handOver hs table
  rw [← hs'] at hhandOver
  have habove := hdeclares.mono hhandOver.2 hinv.kind
  generalize s.propertyTable.getD {} = t at *
  obtain ⟨b, t', heq, -, hfresh⟩ := Structure.putSpecificValue_spec { s.createFrom with
    previous := some i
    nameInPrevious := some name
    attributesInPrevious := attributes.setWidth 7
    specificValueInPrevious := specificValue
    propertyTable := some t } name attributes specificValue hfind
  rw [← hput] at heq hfresh
  obtain ⟨hdeleted', hproperties, hoffset⟩ := hfresh hdeleted
  obtain ⟨c, hgrow⟩ := growIfExceeded_eq put.1
  rw [hgrow, heq] at hx
  refine hhandOver.trans (hhandOver.1.append (.inr
    ⟨t.properties ++ [(name, t.size, attributes)], ?_⟩))
  have hlt : i < (h.set i s').length := by
    rw [length_set]
    exact (List.getElem?_eq_some_iff.mp hs).1
  have hcell : (h.set i s' ++ [x])[(h.set i s').length]? = some x := by
    rw [List.getElem?_append_right le_rfl, Nat.sub_self]
    rfl
  subst hx
  refine ⟨rfl, hd, ?_, ?_, ?_⟩
  · have hchild := Declares.child hcell rfl rfl hlt
      (habove.mono (.append _ _) hhandOver.1.kind) rfl
      (PropertyTable.find_eq_none_iff.mp hfind) (by
        rw [PropertyTable.length_properties]
        exact congrArg some hoffset)
    rw [PropertyTable.length_properties] at hchild
    simp only [setWidth_attributes ha] at hchild
    exact hchild
  · rw [map_append, length_append, length_singleton, range_succ]
    rw [PropertyTable.length_properties] at hoffsets ⊢
    exact hoffsets.append_right _
  · intro u hu
    obtain rfl := Option.some.inj hu
    exact ⟨hproperties, hdeleted'⟩

theorem Invariant.advances_addPropertyTransition (hinv : Invariant h) (hs : h[i]? = some s)
    (hd : s.isDictionary = false) (hget : get h s name = none)
    (ha : attributes.toNat < 64) (specificValue : Option Cell)
    (hlong : s.transitionCount > maxTransitionLength → Rebuilds h s)
    (hshort : s.transitionCount ≤ maxTransitionLength → s.propertyTable = none →
      s.previous = none) :
    Advances h (addPropertyTransition h i name attributes specificValue).1 := by
  have hkind : s.dictionaryKind = noneDictionaryKind := by
    by_contra hne
    exact absurd (decide_eq_true hne) (Bool.eq_false_iff.mp hd)
  unfold addPropertyTransition
  simp only [hs]
  generalize (if s.specificFunctionThrashCount = maxSpecificFunctionThrashCount then none
    else if (specificValue.isSome && containsTransition h s.transitionTable name attributes) = true
      then none else specificValue) = specific
  split
  · rename_i hcount
    unfold toCacheableDictionaryTransition toDictionaryTransition
    obtain ⟨hcell, -⟩ := set_pinnedTransition hs
      (fun transition => { transition with dictionaryKind := cachedDictionaryKind }) s
    simp only [hcell]
    rw [(set_pinnedTransition hs _ _).2]
    have hpinned : Pinned { pinnedCopy h s with dictionaryKind := cachedDictionaryKind } := by
      refine (pinned_pinnedCopy hinv hs (hlong hcount)).withKind (.inr ?_)
      show s.dictionaryKind ≠ _
      rw [hkind]
      decide
    exact hinv.advances_pinned hs (hlong hcount)
      (hpinned.putSpecificValue attributes _ (find_pinnedCopy hget)).growIfExceeded
  · rename_i hcount
    have hmap := hshort (not_lt.mp hcount)
    simp only [transitionPropertyTable_eq hmap]
    exact hinv.advances_transition hs hkind hmap hget ha specific rfl rfl rfl

end Operations

end JavaScriptCore
end WebKit
