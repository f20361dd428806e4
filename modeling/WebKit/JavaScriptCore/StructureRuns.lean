import WebKit.JavaScriptCore.StructureTransitions

/-!
# Runs of structure operations

A run is any sequence of the operations of `Structure`, each on any of the structures there are, in
any order, with readers that rebuild maps and a collector that takes transitions out of transition
tables at any moment.  What an operation asserts of its arguments is `Permitted`.

In a run whose operations rebuild maps rightly all tables are exact, and a map that was rebuilt has
the properties of the one that was handed over.  Without that condition this fails: two property
additions after a pinned structure and one lookup are enough.
-/

namespace WebKit

open List
namespace JavaScriptCore

open Attributes DictionaryKind Structure

section Runs

variable {Name Cell : Type*} [DecidableEq Name]

/-! ## Operations -/

inductive Operation (Name Cell : Type*) where
  /-- A `Structure` without a previous one. -/
  | create (propertyStorageCapacity : ℕ)
  /-- Any of the readers that rebuild the map when it is not there. -/
  | get (structureID : StructureID) (name : Name)
  | addPropertyTransitionToExistingStructure (structureID : StructureID) (name : Name)
      (attributes : Attributes) (specificValue : Option Cell)
  | addPropertyTransition (structureID : StructureID) (name : Name) (attributes : Attributes)
      (specificValue : Option Cell)
  | removePropertyTransition (structureID : StructureID) (name : Name)
  | addPropertyWithoutTransition (structureID : StructureID) (name : Name)
      (attributes : Attributes) (specificValue : Option Cell)
  | removePropertyWithoutTransition (structureID : StructureID) (name : Name)
  | changePrototypeTransition (structureID : StructureID)
  | despecifyFunctionTransition (structureID : StructureID) (replaceFunction : Name)
  | attributeChangeTransition (structureID : StructureID) (name : Name) (attributes : Attributes)
  | toCacheableDictionaryTransition (structureID : StructureID)
  | toUncacheableDictionaryTransition (structureID : StructureID)
  | preventExtensionsTransition (structureID : StructureID)
  | sealTransition (structureID : StructureID)
  | freezeTransition (structureID : StructureID)
  | flattenDictionaryStructure (structureID : StructureID)
  /-- The collector finalizes a transition. -/
  | finalizeTransition (structureID transition : StructureID)

/-- The structure an operation is called on. -/
def Operation.structureID : Operation Name Cell → Option StructureID
  | .create _ => none
  | .get i _ | .addPropertyTransitionToExistingStructure i _ _ _
  | .addPropertyTransition i _ _ _ | .removePropertyTransition i _
  | .addPropertyWithoutTransition i _ _ _ | .removePropertyWithoutTransition i _
  | .changePrototypeTransition i | .despecifyFunctionTransition i _
  | .attributeChangeTransition i _ _ | .toCacheableDictionaryTransition i
  | .toUncacheableDictionaryTransition i | .preventExtensionsTransition i
  | .sealTransition i | .freezeTransition i | .flattenDictionaryStructure i
  | .finalizeTransition i _ => some i

namespace Structures

open Operation

variable (h : Structures Name Cell)

def step : Operation Name Cell → Structures Name Cell
  | create capacity => h ++ [{ propertyStorageCapacity := capacity }]
  | .get i _ => h.modify i (materializePropertyMapIfNecessary h)
  | .addPropertyTransitionToExistingStructure _ _ _ _ => h
  | .addPropertyTransition i name attributes specificValue =>
    (Structures.addPropertyTransition h i name attributes specificValue).1
  | .removePropertyTransition i name => (Structures.removePropertyTransition h i name).1
  | .addPropertyWithoutTransition i name attributes specificValue =>
    (Structures.addPropertyWithoutTransition h i name attributes specificValue).1
  | .removePropertyWithoutTransition i name =>
    (Structures.removePropertyWithoutTransition h i name).1
  | .changePrototypeTransition i => (Structures.changePrototypeTransition h i).1
  | .despecifyFunctionTransition i name => (Structures.despecifyFunctionTransition h i name).1
  | .attributeChangeTransition i name attributes =>
    (Structures.attributeChangeTransition h i name attributes).1
  | .toCacheableDictionaryTransition i => (Structures.toCacheableDictionaryTransition h i).1
  | .toUncacheableDictionaryTransition i => (Structures.toUncacheableDictionaryTransition h i).1
  | .preventExtensionsTransition i => (Structures.preventExtensionsTransition h i).1
  | .sealTransition i => (Structures.sealTransition h i).1
  | .freezeTransition i => (Structures.freezeTransition h i).1
  | .flattenDictionaryStructure i => h.modify i Structure.flattenDictionaryStructure
  | .finalizeTransition i transition => h.modify i fun s =>
      { s with transitionTable := Structures.finalizeTransition s.transitionTable transition }

/-- What the operation asserts of the structure it is called on, and of the attributes: they are
made of the flags up to `accessor`. -/
def Permitted (s : Structure Name Cell) : Operation Name Cell → Prop
  | .addPropertyTransition _ name attributes _ =>
    s.isDictionary = false ∧ Structure.get h s name = none ∧ attributes.toNat < 64
  | .removePropertyTransition _ _ => s.isUncacheableDictionary = false
  | .addPropertyWithoutTransition _ name _ _ =>
    s.isDictionary = true ∧ Structure.get h s name = none
  | .removePropertyWithoutTransition _ _ => s.isUncacheableDictionary = true
  | .despecifyFunctionTransition _ _ => s.specificFunctionThrashCount < maxSpecificFunctionThrashCount
  | .attributeChangeTransition _ name _ => (Structure.get h s name).isSome
  | .toCacheableDictionaryTransition _ => s.isUncacheableDictionary = false
  | .toUncacheableDictionaryTransition _ => s.isUncacheableDictionary = false
  | .flattenDictionaryStructure _ => s.isDictionary = true
  | _ => True

/-- Whenever the operation rebuilds a property map, nothing above the structure is pinned, and the
map is not that of a transition just made: `addPropertyTransition` finds the map of its structure in
place, or there is nothing above. -/
def RebuildsRightly (s : Structure Name Cell) : Operation Name Cell → Prop
  | .addPropertyTransition _ _ _ _ =>
    if s.transitionCount > maxTransitionLength then Rebuilds h s
    else s.propertyTable = none → s.previous = none
  | .get _ _ | .removePropertyTransition _ _ | .changePrototypeTransition _
  | .despecifyFunctionTransition _ _ | .attributeChangeTransition _ _ _
  | .toCacheableDictionaryTransition _ | .toUncacheableDictionaryTransition _
  | .preventExtensionsTransition _ | .sealTransition _ | .freezeTransition _ => Rebuilds h s
  | _ => True

/-- `P` holds of every step of a run and of the structure that it is on. -/
def Along (P : Structures Name Cell → Structure Name Cell → Operation Name Cell → Prop) :
    Structures Name Cell → List (Operation Name Cell) → Prop
  | _, [] => True
  | h, op :: ops => (∀ s ∈ op.structureID.bind (h[·]?), P h s op) ∧ Along P (step h op) ops

def run (ops : List (Operation Name Cell)) : Structures Name Cell :=
  ops.foldl step h

/-- The structures after the first `k` operations of a run from the empty heap. -/
def state (ops : List (Operation Name Cell)) (k : ℕ) : Structures Name Cell :=
  run [] (ops.take k)

/-- What the property tables of a run promise. -/
structure TablesSound (ops : List (Operation Name Cell)) : Prop where
  /-- In every table the offsets are distinct, and with the deleted ones they are those below the
  storage size. -/
  exact : ∀ (k : ℕ) (i : StructureID) (s : Structure Name Cell) (t : PropertyTable Name Cell),
    (state ops k)[i]? = some s → s.propertyTable = some t →
      t.DistinctOffsets ∧ t.Covers s.propertyStorageSize
  /-- A structure that gave its table away still counts the same storage. -/
  handedOver : ∀ (k m : ℕ) (i : StructureID) (s s' : Structure Name Cell)
    (t : PropertyTable Name Cell), k ≤ m →
    (state ops k)[i]? = some s → s.propertyTable = some t →
    (state ops m)[i]? = some s' → s'.propertyTable = none →
      s'.propertyStorageSize = t.propertyStorageSize
  /-- A table that it has later has the same properties in the same order. -/
  rebuilt : ∀ (k m n : ℕ) (i : StructureID) (s s' s'' : Structure Name Cell)
    (t t'' : PropertyTable Name Cell), k ≤ m → m ≤ n →
    (state ops k)[i]? = some s → s.propertyTable = some t →
    (state ops m)[i]? = some s' → s'.propertyTable = none →
    (state ops n)[i]? = some s'' → s''.propertyTable = some t'' → t''.properties = t.properties

/-! ## One step -/

variable {h : Structures Name Cell} {op : Operation Name Cell} {i : StructureID}

omit [DecidableEq Name] in
theorem modify_of_none (hs : h[i]? = none) (f : Structure Name Cell → Structure Name Cell) :
    h.modify i f = h :=
  modify_eq_self (List.getElem?_eq_none_iff.mp hs)

/-- An operation on no structure does nothing. -/
theorem step_of_none (hi : op.structureID = some i) (hs : h[i]? = none) : step h op = h := by
  cases op with
  | create => cases hi
  | get j name => cases hi; exact modify_of_none hs _
  | addPropertyTransitionToExistingStructure => rfl
  | addPropertyTransition =>
    cases hi
    simp only [step, Structures.addPropertyTransition, hs]
  | removePropertyTransition =>
    cases hi
    simp only [step, Structures.removePropertyTransition, Structures.toUncacheableDictionaryTransition,
      toDictionaryTransition, pinnedTransition, hs]
  | addPropertyWithoutTransition =>
    cases hi
    simp only [step, Structures.addPropertyWithoutTransition, hs]
  | removePropertyWithoutTransition =>
    cases hi
    simp only [step, Structures.removePropertyWithoutTransition, hs]
  | changePrototypeTransition =>
    cases hi
    simp only [step, Structures.changePrototypeTransition, pinnedTransition, hs]
  | despecifyFunctionTransition =>
    cases hi
    simp only [step, Structures.despecifyFunctionTransition, pinnedTransition, hs]
  | attributeChangeTransition =>
    cases hi
    simp only [step, Structures.attributeChangeTransition, hs, modify_of_none hs]
  | toCacheableDictionaryTransition =>
    cases hi
    simp only [step, Structures.toCacheableDictionaryTransition, toDictionaryTransition,
      pinnedTransition, hs]
  | toUncacheableDictionaryTransition =>
    cases hi
    simp only [step, Structures.toUncacheableDictionaryTransition, toDictionaryTransition,
      pinnedTransition, hs]
  | preventExtensionsTransition =>
    cases hi
    simp only [step, Structures.preventExtensionsTransition, pinnedTransition, hs]
  | sealTransition =>
    cases hi
    simp only [step, Structures.sealTransition, Structures.preventExtensionsTransition,
      pinnedTransition, hs, modify_of_none hs]
  | freezeTransition =>
    cases hi
    simp only [step, Structures.freezeTransition, Structures.preventExtensionsTransition,
      pinnedTransition, hs, modify_of_none hs]
  | _ => cases hi; exact modify_of_none hs _

theorem step_advances_of_some (hinv : Invariant h)
    (hi : op.structureID = some i) (hs : h[i]? = some s) (hp : Permitted h s op)
    (hr : RebuildsRightly h s op) : Advances h (step h op) := by
  cases op with
  | create => cases hi
  | get j name =>
    cases hi
    obtain ⟨hkeeps, hcell⟩ := materializePropertyMapIfNecessary_spec hinv hs hr
    show Advances h (h.modify _ _)
    rw [modify_eq_set hs]
    exact hinv.set hs hkeeps hcell
  | addPropertyTransitionToExistingStructure => exact hinv.advances_refl
  | addPropertyTransition j name attributes specificValue =>
    cases hi
    obtain ⟨hd, hget, ha⟩ := hp
    unfold RebuildsRightly at hr
    refine hinv.advances_addPropertyTransition hs hd hget ha specificValue ?_ ?_
    · intro hlong
      rw [if_pos hlong] at hr
      exact hr
    · intro hshort
      rw [if_neg (not_lt.mpr hshort)] at hr
      exact hr
  | removePropertyTransition j name =>
    cases hi
    exact hinv.advances_removePropertyTransition hs hr
  | addPropertyWithoutTransition j name attributes specificValue =>
    cases hi
    exact hinv.advances_addPropertyWithoutTransition hs hp.1 hp.2 attributes specificValue
  | removePropertyWithoutTransition j name =>
    cases hi
    exact hinv.advances_removePropertyWithoutTransition hs hp
  | changePrototypeTransition j =>
    cases hi
    exact hinv.advances_pinnedTransition hs hr fun _ hx _ => hx
  | despecifyFunctionTransition j name =>
    cases hi
    exact hinv.advances_despecifyFunctionTransition hs hr
  | attributeChangeTransition j name attributes =>
    cases hi
    exact hinv.advances_attributeChangeTransition hs hr attributes
  | toCacheableDictionaryTransition j =>
    cases hi
    refine hinv.advances_toDictionaryTransition hs hr (.inr ?_)
    exact of_decide_eq_false hp
  | toUncacheableDictionaryTransition j =>
    cases hi
    exact hinv.advances_toDictionaryTransition hs hr (.inl rfl)
  | preventExtensionsTransition j =>
    cases hi
    exact hinv.advances_preventExtensionsTransition hs hr
  | sealTransition j =>
    cases hi
    exact hinv.advances_sealTransition hs hr
  | freezeTransition j =>
    cases hi
    exact hinv.advances_freezeTransition hs hr
  | flattenDictionaryStructure j =>
    cases hi
    exact hinv.advances_flattenDictionaryStructure hs hp
  | finalizeTransition j transition =>
    cases hi
    show Advances h (h.modify _ _)
    rw [modify_eq_set hs]
    refine hinv.set hs { Keeps.refl s with } ?_
    rcases hinv i s hs with hpinned | ⟨v, hunpinned⟩
    · exact .inl (hpinned.congr rfl rfl rfl rfl)
    · exact .inr ⟨v, { hunpinned with }⟩

/-- A new `Structure` declares nothing. -/
theorem advances_create (hinv : Invariant h) (capacity : ℕ) :
    Advances h (step h (create capacity)) := by
  refine hinv.append (.inr ⟨[], rfl, rfl, ?_, List.Perm.refl _, ?_⟩)
  · refine .root (s := { propertyStorageCapacity := capacity }) ?_ rfl rfl rfl
    rw [List.getElem?_append_right le_rfl, Nat.sub_self]
    rfl
  · intro t ht
    cases ht

theorem step_advances (hinv : Invariant h)
    (hp : ∀ s ∈ op.structureID.bind (h[·]?), Permitted h s op)
    (hr : ∀ s ∈ op.structureID.bind (h[·]?), RebuildsRightly h s op) : Advances h (step h op) := by
  cases hi : op.structureID with
  | none =>
    cases op with
    | create capacity => exact advances_create hinv capacity
    | _ => cases hi
  | some i =>
    rw [hi] at hp hr
    cases hs : h[i]? with
    | none =>
      rw [step_of_none hi hs]
      exact hinv.advances_refl
    | some s => exact step_advances_of_some hinv hi hs (hp s hs) (hr s hs)

/-! ## Runs -/

theorem run_advances (ops : List (Operation Name Cell)) (hinv : Invariant h)
    (hp : Along Permitted h ops) (hr : Along RebuildsRightly h ops) : Advances h (run h ops) := by
  induction ops generalizing h with
  | nil => exact hinv.advances_refl
  | cons op ops ih =>
    have hstep := step_advances hinv hp.1 hr.1
    exact hstep.trans (ih hstep.1 hp.2 hr.2)

variable {P : Structures Name Cell → Structure Name Cell → Operation Name Cell → Prop}
  {ops : List (Operation Name Cell)}

theorem Along.take (ha : Along P h ops) (k : ℕ) : Along P h (ops.take k) := by
  induction ops generalizing h k with
  | nil =>
    rw [take_nil]
    trivial
  | cons op ops ih =>
    cases k with
    | zero => trivial
    | succ k => exact ⟨ha.1, ih ha.2 k⟩

theorem Along.drop (ha : Along P h ops) (k : ℕ) : Along P (run h (ops.take k)) (ops.drop k) := by
  induction ops generalizing h k with
  | nil =>
    rw [drop_nil]
    trivial
  | cons op ops ih =>
    cases k with
    | zero => exact ha
    | succ k => exact ih ha.2 k

theorem run_take_add (h : Structures Name Cell) (ops : List (Operation Name Cell)) (k l : ℕ) :
    run h (ops.take (k + l)) = run (run h (ops.take k)) ((ops.drop k).take l) := by
  unfold run
  rw [take_add, foldl_append]

omit [DecidableEq Name] in
theorem invariant_nil : Invariant ([] : Structures Name Cell) := by
  intro i s hs
  cases hs

/-- Any two states of a run. -/
theorem advances_states (hp : Along Permitted [] ops) (hr : Along RebuildsRightly [] ops)
    (hkn : k ≤ n) : Advances (state ops k) (state ops n) := by
  obtain ⟨l, rfl⟩ := Nat.exists_eq_add_of_le hkn
  have hk := run_advances (ops.take k) invariant_nil (hp.take k) (hr.take k)
  unfold state
  rw [run_take_add]
  exact run_advances _ hk.1 ((hp.drop k).take l) ((hr.drop k).take l)

omit [DecidableEq Name] in
/-- A structure that is not pinned counts one slot for each property that it declares. -/
theorem Unpinned.transitionCount
    (hu : Unpinned h i s v) (hs : h[i]? = some s) : s.transitionCount = v.length := by
  unfold Structure.transitionCount
  cases hu.declares with
  | root cell _ _ offset =>
    obtain rfl := Option.some.inj (hs.symm.trans cell)
    rw [offset]
    rfl
  | pinned cell pinned =>
    obtain rfl := Option.some.inj (hs.symm.trans cell)
    exact absurd (hu.unpinned.symm.trans pinned) Bool.false_ne_true
  | child cell _ _ _ _ _ _ offset =>
    obtain rfl := Option.some.inj (hs.symm.trans cell)
    rw [offset, length_append, length_singleton]

omit [DecidableEq Name] in
/-- A structure that once has no table is not pinned, before and after, and declares at all times
the properties of the table it had. -/
theorem unpinned_of_handedOver (hinv : Invariant h) (ha : Advances h h₁)
    (hs : h[i]? = some s) (ht : s.propertyTable = some t) (hs' : h₁[i]? = some s')
    (ht' : s'.propertyTable = none) (ha' : Advances h h₂)
    (hs'' : h₂[i]? = some s'') : t.deletedOffsets = [] ∧ Unpinned h₂ i s'' t.properties := by
  have hunpinned : s.isPinnedPropertyTable = false := by
    rw [← Bool.not_eq_true]
    intro hpin
    obtain ⟨s₁, hs₁, hkeeps⟩ := ha.2 i s hs
    obtain rfl := Option.some.inj (hs'.symm.trans hs₁)
    rcases ha.1 i s' hs' with hpinned | ⟨v, hun⟩
    · obtain ⟨u, hu, -⟩ := hpinned.table
      cases ht'.symm.trans hu
    · exact absurd (hun.unpinned.symm.trans (hkeeps.pinned hpin)) Bool.false_ne_true
  rcases hinv i s hs with hpinned | ⟨v, hun⟩
  · exact absurd (hunpinned.symm.trans hpinned.pinned) Bool.false_ne_true
  obtain ⟨rfl, hdeleted⟩ := hun.table t ht
  refine ⟨hdeleted, ?_⟩
  have hdeclares := hun.declares.mono ha'.2 hinv.kind
  obtain ⟨s₂, hs₂, hkeeps⟩ := ha'.2 i s hs
  obtain rfl := Option.some.inj (hs''.symm.trans hs₂)
  have hunpinned'' := (hkeeps.unpinned hun.kind).trans hunpinned
  rcases ha'.1 i s'' hs'' with hpinned | ⟨v, hun''⟩
  · exact absurd (hunpinned''.symm.trans hpinned.pinned) Bool.false_ne_true
  · obtain rfl := hdeclares.unique hun''.declares
    exact hun''

/-- In a run in which every operation rebuilds maps rightly, the offsets in use and the deleted ones
count the storage of every structure, and every rebuilt map is the one that was handed over. -/
theorem tablesSound_of_rebuildsRightly (ops : List (Operation Name Cell))
    (hp : Along Permitted [] ops) (hr : Along RebuildsRightly [] ops) : TablesSound ops := by
  have hinv : ∀ k, Invariant (state ops k) := fun k =>
    (advances_states hp hr (le_refl k)).1
  refine ⟨?_, ?_, ?_⟩
  · intro k i s t hs ht
    have hexact := (hinv k).exact hs ht
    refine ⟨hexact.distinctOffsets, ?_⟩
    have hsize : s.propertyStorageSize = t.propertyStorageSize := by
      unfold Structure.propertyStorageSize
      rw [ht]
    rw [hsize]
    exact hexact.covers
  · intro k m i s s' t hkm hs ht hs' ht'
    have ha := advances_states hp hr hkm
    obtain ⟨hdeleted, hun⟩ := unpinned_of_handedOver (hinv k) ha hs ht hs' ht' ha hs'
    have hcount := Unpinned.transitionCount hun hs'
    have hsize : s'.propertyStorageSize = s'.transitionCount := by
      unfold Structure.propertyStorageSize Structure.transitionCount
      rw [ht']
    rw [hsize, hcount, PropertyTable.length_properties]
    unfold PropertyTable.propertyStorageSize
    rw [hdeleted, length_nil, add_zero]
  · intro k m n i s s' s'' t t'' hkm hmn hs ht hs' ht' hs'' ht''
    obtain ⟨-, hun⟩ := unpinned_of_handedOver (hinv k) (advances_states hp hr hkm) hs ht hs' ht'
      (advances_states hp hr (hkm.trans hmn)) hs''
    exact (hun.table t'' ht'').1

/-- The first transition hands its map to the second and has it rebuilt. -/
theorem tablesSound_of_get : TablesSound ([create 4, .addPropertyTransition 0 10 0#32 none,
    .addPropertyTransition 1 11 dontEnum none, .get 1 10] : List (Operation ℕ ℕ)) := by
  refine tablesSound_of_rebuildsRightly _ ?_ ?_
  · simp only [Along, Permitted]
    decide +kernel
  · refine ⟨fun _ _ => trivial, ?_, ?_, ?_, trivial⟩
    · rintro s ⟨⟩
      exact fun _ => rfl
    · rintro s ⟨⟩
      exact fun hnone => nomatch hnone
    · rintro s ⟨⟩ -
      exact not_pinnedAbove_some rfl rfl not_pinnedAbove_none

/-- A pinned structure with attributes of its own, two transitions from it, and a lookup of the name
that the first of them added. -/
def lostPropertyRun : List (Operation ℕ ℕ) :=
  [create 4, .addPropertyTransition 0 10 0#32 none, .attributeChangeTransition 1 10 dontEnum,
    .addPropertyTransition 2 11 0#32 none, .addPropertyTransition 3 12 0#32 none, .get 3 11]

theorem not_tablesSound_lostPropertyRun :
    Along Permitted [] lostPropertyRun ∧ ¬ TablesSound lostPropertyRun := by
  constructor
  · simp only [lostPropertyRun, Along, Permitted]
    decide +kernel
  · intro hsound
    have hlost := hsound.rebuilt 4 5 6 3 _ _ _ _ _ (by decide) (by decide) rfl rfl rfl rfl rfl rfl
    revert hlost
    decide +kernel

end Structures

end Runs

end JavaScriptCore
end WebKit
