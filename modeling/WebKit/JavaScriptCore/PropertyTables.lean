import WebKit.JavaScriptCore.Structure

/-!
# Property tables along the transitions

What a `Structure` has to say about its properties is the list of their names, offsets and
attributes in the order of enumeration.  A pinned `Structure` says it with its table; any other says
what its previous one says, and one entry more (`Declares`).  As long as the maps are rebuilt right,
every table agrees with what its `Structure` declares, and what a `Structure` without dictionary
kind declares never changes.

`materializePropertyMap` is right where the walk upwards ends at a `Structure` that nothing is above
of and that is not pinned.  Where it ends at a pinned one, the entry of the first transition after it
is lost; where it starts at a transition that `addPropertyTransition` is about to fill, the new name
gets an entry with offset `0xFFFFFFFF`.
-/

namespace WebKit

open List
namespace JavaScriptCore

open Attributes DictionaryKind

variable {Name Cell : Type*}

/-! ## Tables -/

/-- A property: its name, its offset and its attributes. -/
abbrev Property (Name : Type*) := Name × ℕ × Attributes

namespace PropertyTable

variable {t t' : PropertyTable Name Cell} {name : Name}

/-- The properties of a table, in the order in which they are enumerated. -/
def properties (t : PropertyTable Name Cell) : List (Property Name) :=
  t.entries.map fun e => (e.key, e.offset, e.attributes)

def offsets (t : PropertyTable Name Cell) : List ℕ := t.entries.map (·.offset)

/-- No two properties have one offset. -/
def DistinctOffsets (t : PropertyTable Name Cell) : Prop := t.offsets.Nodup

/-- The offsets in use and the deleted ones are the offsets below `n`. -/
def Covers (t : PropertyTable Name Cell) (n : ℕ) : Prop :=
  ∀ k, k ∈ t.offsets ∨ k ∈ t.deletedOffsets ↔ k < n

/-- Every offset of the storage is in use once or deleted once. -/
def Exact (t : PropertyTable Name Cell) : Prop :=
  (t.offsets ++ t.deletedOffsets).Perm (List.range t.propertyStorageSize)

theorem Exact.distinctOffsets (h : t.Exact) : t.DistinctOffsets :=
  (nodup_append.mp (h.nodup_iff.mpr nodup_range)).1

theorem Exact.covers (h : t.Exact) : t.Covers t.propertyStorageSize := by
  intro k
  rw [← mem_append, h.mem_iff, mem_range]

theorem length_properties (t : PropertyTable Name Cell) : t.properties.length = t.size := by
  unfold properties size
  rw [length_map]

theorem length_offsets (t : PropertyTable Name Cell) : t.offsets.length = t.size := by
  unfold offsets size
  rw [length_map]

theorem map_offset_properties (t : PropertyTable Name Cell) :
    t.properties.map (·.2.1) = t.offsets := by
  unfold properties offsets
  rw [map_map]
  rfl

/-- Exactness is a matter of the offsets only. -/
theorem Exact.congr (h : t.Exact) (ho : t'.offsets = t.offsets)
    (hd : t'.deletedOffsets = t.deletedOffsets) : t'.Exact := by
  have hsize : t'.propertyStorageSize = t.propertyStorageSize := by
    unfold propertyStorageSize
    rw [← length_offsets, ← length_offsets, ho, hd]
  unfold Exact
  rw [hsize, ho, hd]
  exact h

/-- Without deleted offsets the properties alone decide. -/
theorem exact_iff_of_deletedOffsets_eq_nil (hd : t.deletedOffsets = []) :
    t.Exact ↔ (t.properties.map (·.2.1)).Perm (List.range t.properties.length) := by
  unfold Exact propertyStorageSize
  rw [hd, append_nil, map_offset_properties, length_properties, length_nil, add_zero]

theorem exact_empty : Exact ({} : PropertyTable Name Cell) := List.Perm.refl _

theorem offsets_modifyAll (hf : ∀ e, (f e).offset = e.offset) (t : PropertyTable Name Cell) :
    (t.modifyAll f).offsets = t.offsets := by
  unfold modifyAll offsets
  rw [map_map]
  exact map_congr_left fun e _ => hf e

/-- The offsets after a flattening count up from the first. -/
theorem offsets_flattened (t : PropertyTable Name Cell) :
    offsets { t with entries := t.entries.mapIdx fun i e => { e with offset := i } }
      = List.range t.size := by
  unfold offsets size
  refine ext_getElem ?_ ?_
  · rw [length_map, length_mapIdx, length_range]
  · intro i h h'
    rw [getElem_map, getElem_mapIdx, getElem_range]

theorem exact_flattened (t : PropertyTable Name Cell) : Exact (clearDeletedOffsets
      { t with entries := t.entries.mapIdx fun i e => { e with offset := i } }) := by
  have hsize : propertyStorageSize (clearDeletedOffsets
      { t with entries := t.entries.mapIdx fun i e => { e with offset := i } }) = t.size := by
    show (t.entries.mapIdx _).length + 0 = t.entries.length
    rw [length_mapIdx, add_zero]
  unfold Exact
  rw [hsize]
  exact List.Perm.of_eq ((append_nil _).trans (offsets_flattened t))

theorem properties_append (t : PropertyTable Name Cell) (e : PropertyMapEntry Name Cell) :
    properties { t with entries := t.entries ++ [e] }
      = t.properties ++ [(e.key, e.offset, e.attributes)] := by
  unfold properties
  rw [map_append, map_singleton]

theorem takeOffset_of_nil (hd : t.deletedOffsets = []) : t.takeOffset = (t.size, t) := by
  unfold takeOffset
  rw [hd]

theorem takeOffset_entries (t : PropertyTable Name Cell) : t.takeOffset.2.entries = t.entries := by
  unfold takeOffset
  split <;> rfl

section Keys

variable [DecidableEq Name]

theorem offsets_modify
    (hf : ∀ e, (f e).offset = e.offset) (t : PropertyTable Name Cell) (key : Name) :
    (t.modify key f).offsets = t.offsets := by
  unfold modify offsets
  rw [map_map]
  refine map_congr_left fun e _ => ?_
  show PropertyMapEntry.offset (if e.key = key then f e else e) = e.offset
  split
  · exact hf e
  · rfl

theorem find_eq_none_iff : t.find name = none ↔ ∀ x ∈ t.properties, x.1 ≠ name := by
  unfold find properties
  rw [List.find?_eq_none]
  constructor
  · intro h x hx
    obtain ⟨e, he, rfl⟩ := mem_map.mp hx
    exact fun hkey => h e he (decide_eq_true hkey)
  · intro h e he hkey
    exact h _ (mem_map_of_mem he) (of_decide_eq_true hkey)

variable {e : PropertyMapEntry Name Cell}

theorem add_of_find (h : t.find e.key = none) :
    t.add e = { t with entries := t.entries ++ [e] } := by
  unfold add
  rw [h]

theorem properties_add (h : t.find e.key = none) :
    (t.add e).properties = t.properties ++ [(e.key, e.offset, e.attributes)] := by
  rw [add_of_find h, properties_append]

theorem deletedOffsets_add (t : PropertyTable Name Cell) (e : PropertyMapEntry Name Cell) :
    (t.add e).deletedOffsets = t.deletedOffsets := by
  unfold add
  split <;> rfl

/-- A new entry gets a deleted offset, or the next one when there is none. -/
theorem Exact.add_takeOffset (h : t.Exact) (hfind : t.find name = none) (attributes : Attributes)
    (specificValue : Option Cell) :
    (t.takeOffset.2.add ⟨name, t.takeOffset.1, attributes, specificValue⟩).Exact := by
  have hfind' : t.takeOffset.2.find name = none := by
    unfold find at hfind ⊢
    rw [takeOffset_entries]
    exact hfind
  rw [add_of_find hfind']
  rcases hd : t.deletedOffsets with _ | ⟨offset, rest⟩
  · rw [takeOffset_of_nil hd]
    have hp := (exact_iff_of_deletedOffsets_eq_nil hd).mp h
    refine (exact_iff_of_deletedOffsets_eq_nil ?_).mpr ?_
    · exact hd
    rw [properties_append, map_append, length_append, length_singleton, range_succ]
    rw [length_properties] at hp ⊢
    exact hp.append_right _
  · have htake : t.takeOffset = (offset, { t with deletedOffsets := rest }) := by
      unfold takeOffset
      rw [hd]
    rw [htake]
    have hsize : propertyStorageSize
        { entries := t.entries ++ [⟨name, offset, attributes, specificValue⟩]
          deletedOffsets := rest } = t.propertyStorageSize := by
      show (t.entries ++ [_]).length + rest.length = t.entries.length + t.deletedOffsets.length
      rw [hd, length_append, length_singleton, length_cons]
      omega
    unfold Exact
    rw [hsize]
    refine List.Perm.trans (List.Perm.of_eq ?_) h
    show List.map PropertyMapEntry.offset (t.entries ++ [_]) ++ rest = t.offsets ++ t.deletedOffsets
    rw [hd, map_append, append_assoc]
    rfl

/-- Taking an entry out and noting its offset as deleted moves the offset from one list to the
other. -/
theorem Exact.remove (h : t.Exact) (he : t.find name = some e) :
    ((t.remove name).addDeletedOffset e.offset).Exact := by
  obtain ⟨hkey, before, after, hentries, hbefore⟩ := List.find?_eq_some_iff_append.mp he
  have herase : (t.remove name).entries = before ++ after := by
    show t.entries.eraseP _ = _
    rw [hentries, eraseP_append_right]
    · rw [eraseP_cons_of_pos (by exact hkey)]
    · intro b hb
      simpa using hbefore b hb
  have hsize : ((t.remove name).addDeletedOffset e.offset).propertyStorageSize
      = t.propertyStorageSize := by
    show (t.remove name).entries.length + (e.offset :: t.deletedOffsets).length
      = t.entries.length + t.deletedOffsets.length
    rw [herase, hentries]
    simp only [length_append, length_cons]
    omega
  unfold Exact
  rw [hsize]
  refine List.Perm.trans ?_ h
  show ((t.remove name).entries.map (·.offset) ++ (e.offset :: t.deletedOffsets)).Perm
    (t.entries.map (·.offset) ++ t.deletedOffsets)
  rw [herase, hentries]
  simp only [map_append, append_assoc]
  exact perm_middle.append_left _

end Keys

end PropertyTable

/-! ## What a structure declares -/

section Declares

variable {h h' : Structures Name Cell} {s s' : Structure Name Cell} {i p : StructureID}
  {v v' : List (Property Name)}

/-- The structure at `i` declares the properties `v`. -/
inductive Declares (h : Structures Name Cell) : StructureID → List (Property Name) → Prop
  | root {i : StructureID} {s : Structure Name Cell} (cell : h[i]? = some s)
      (unpinned : s.isPinnedPropertyTable = false) (previous : s.previous = none)
      (offset : s.offset = none) : Declares h i []
  | pinned {i : StructureID} {s : Structure Name Cell} {t : PropertyTable Name Cell}
      (cell : h[i]? = some s) (pinned : s.isPinnedPropertyTable = true)
      (kind : s.dictionaryKind = noneDictionaryKind) (table : s.propertyTable = some t) :
      Declares h i t.properties
  | child {i p : StructureID} {s : Structure Name Cell} {v : List (Property Name)} {name : Name}
      (cell : h[i]? = some s) (unpinned : s.isPinnedPropertyTable = false)
      (previous : s.previous = some p) (lt : p < i) (above : Declares h p v)
      (nameInPrevious : s.nameInPrevious = some name) (fresh : ∀ x ∈ v, x.1 ≠ name)
      (offset : s.offset = some v.length) :
      Declares h i (v ++ [(name, v.length, s.attributesInPrevious.setWidth 32)])

theorem Declares.unique (hv : Declares h i v) (hv' : Declares h i v') : v = v' := by
  induction hv generalizing v' with
  | root cell unpinned previous offset =>
    cases hv' with
    | root => rfl
    | pinned cell' pinned' =>
      obtain rfl := Option.some.inj (cell.symm.trans cell')
      exact absurd (unpinned.symm.trans pinned') Bool.false_ne_true
    | child cell' _ previous' =>
      obtain rfl := Option.some.inj (cell.symm.trans cell')
      cases previous.symm.trans previous'
  | pinned cell pinned kind table =>
    cases hv' with
    | root cell' unpinned' =>
      obtain rfl := Option.some.inj (cell.symm.trans cell')
      exact absurd (unpinned'.symm.trans pinned) Bool.false_ne_true
    | pinned cell' _ _ table' =>
      obtain rfl := Option.some.inj (cell.symm.trans cell')
      obtain rfl := Option.some.inj (table.symm.trans table')
      rfl
    | child cell' unpinned' =>
      obtain rfl := Option.some.inj (cell.symm.trans cell')
      exact absurd (unpinned'.symm.trans pinned) Bool.false_ne_true
  | child cell unpinned previous lt above nameInPrevious fresh offset ih =>
    cases hv' with
    | root cell' _ previous' =>
      obtain rfl := Option.some.inj (cell.symm.trans cell')
      cases previous.symm.trans previous'
    | pinned cell' pinned' =>
      obtain rfl := Option.some.inj (cell.symm.trans cell')
      exact absurd (unpinned.symm.trans pinned') Bool.false_ne_true
    | child cell' _ previous' _ above' nameInPrevious' =>
      obtain rfl := Option.some.inj (cell.symm.trans cell')
      obtain rfl := Option.some.inj (previous.symm.trans previous')
      obtain rfl := Option.some.inj (nameInPrevious.symm.trans nameInPrevious')
      rw [ih above']

/-- `s'` may stand where `s` stood: it is pinned if `s` was, and unless `s` is a dictionary, it adds
to its previous structure what `s` adds. -/
structure Keeps (s s' : Structure Name Cell) : Prop where
  pinned : s.isPinnedPropertyTable = true → s'.isPinnedPropertyTable = true
  kind : s.dictionaryKind = noneDictionaryKind → s'.dictionaryKind = noneDictionaryKind
  unpinned : s.dictionaryKind = noneDictionaryKind →
    s'.isPinnedPropertyTable = s.isPinnedPropertyTable
  previous : s.dictionaryKind = noneDictionaryKind → s'.previous = s.previous
  nameInPrevious : s.dictionaryKind = noneDictionaryKind → s'.nameInPrevious = s.nameInPrevious
  offset : s.dictionaryKind = noneDictionaryKind → s'.offset = s.offset
  attributesInPrevious : s.dictionaryKind = noneDictionaryKind →
    s'.attributesInPrevious = s.attributesInPrevious
  table : s.dictionaryKind = noneDictionaryKind → s.isPinnedPropertyTable = true →
    s'.propertyTable = s.propertyTable

theorem Keeps.refl (s : Structure Name Cell) : Keeps s s :=
  ⟨id, id, fun _ => rfl, fun _ => rfl, fun _ => rfl, fun _ => rfl, fun _ => rfl, fun _ _ => rfl⟩

theorem Keeps.trans (hk : Keeps s s') (hk' : Keeps s' s'') :
    Keeps s s'' where
  pinned hp := hk'.pinned (hk.pinned hp)
  kind hn := hk'.kind (hk.kind hn)
  unpinned hn := (hk'.unpinned (hk.kind hn)).trans (hk.unpinned hn)
  previous hn := (hk'.previous (hk.kind hn)).trans (hk.previous hn)
  nameInPrevious hn := (hk'.nameInPrevious (hk.kind hn)).trans (hk.nameInPrevious hn)
  offset hn := (hk'.offset (hk.kind hn)).trans (hk.offset hn)
  attributesInPrevious hn :=
    (hk'.attributesInPrevious (hk.kind hn)).trans (hk.attributesInPrevious hn)
  table hn hp := (hk'.table (hk.kind hn) (hk.pinned hp)).trans (hk.table hn hp)

/-- A dictionary has no transitions, so nothing else depends on what it declares. -/
theorem Keeps.of_dictionary (hd : s.dictionaryKind ≠ noneDictionaryKind)
    (hp : s.isPinnedPropertyTable = true → s'.isPinnedPropertyTable = true) : Keeps s s' :=
  ⟨hp, fun hn => absurd hn hd, fun hn => absurd hn hd, fun hn => absurd hn hd,
    fun hn => absurd hn hd, fun hn => absurd hn hd, fun hn => absurd hn hd,
    fun hn => absurd hn hd⟩

/-- Every structure is still there and declares what it declared. -/
def Extends (h h' : Structures Name Cell) : Prop :=
  ∀ (i : StructureID) (s : Structure Name Cell), h[i]? = some s →
    ∃ s', h'[i]? = some s' ∧ Keeps s s'

theorem Extends.refl (h : Structures Name Cell) : Extends h h :=
  fun _ s hs => ⟨s, hs, .refl s⟩

theorem Extends.trans (he : Extends h h') (he' : Extends h' h'') :
    Extends h h'' := by
  intro i s hs
  obtain ⟨s', hs', hk⟩ := he i s hs
  obtain ⟨s'', hs'', hk'⟩ := he' i s' hs'
  exact ⟨s'', hs'', hk.trans hk'⟩

theorem Extends.append (h l : Structures Name Cell) : Extends h (h ++ l) := by
  intro i s hs
  have hlt := (List.getElem?_eq_some_iff.mp hs).1
  exact ⟨s, (List.getElem?_append_left hlt).trans hs, .refl s⟩

theorem Extends.set (hs : h[i]? = some s) (hk : Keeps s s') : Extends h (h.set i s') := by
  intro j u hu
  by_cases hij : i = j
  · subst hij
    obtain rfl := Option.some.inj (hs.symm.trans hu)
    exact ⟨s', List.getElem?_set_self (List.getElem?_eq_some_iff.mp hs).1, hk⟩
  · exact ⟨u, (List.getElem?_set_ne hij).trans hu, .refl u⟩

/-- What a structure without dictionary kind declares stays. -/
theorem Declares.mono (hv : Declares h i v) (he : Extends h h')
    (hn : ∀ (j : StructureID) (s : Structure Name Cell), h[j]? = some s →
      s.isPinnedPropertyTable = false → s.dictionaryKind = noneDictionaryKind) : Declares h' i v := by
  induction hv with
  | root cell unpinned previous offset =>
    obtain ⟨s', cell', hk⟩ := he _ _ cell
    have hnone := hn _ _ cell unpinned
    exact .root cell' ((hk.unpinned hnone).trans unpinned) ((hk.previous hnone).trans previous)
      ((hk.offset hnone).trans offset)
  | pinned cell pinned kind table =>
    obtain ⟨s', cell', hk⟩ := he _ _ cell
    exact .pinned cell' (hk.pinned pinned) (hk.kind kind) ((hk.table kind pinned).trans table)
  | child cell unpinned previous lt above nameInPrevious fresh offset ih =>
    obtain ⟨s', cell', hk⟩ := he _ _ cell
    have hnone := hn _ _ cell unpinned
    have hchild := Declares.child cell' ((hk.unpinned hnone).trans unpinned)
      ((hk.previous hnone).trans previous) lt ih
      ((hk.nameInPrevious hnone).trans nameInPrevious) fresh ((hk.offset hnone).trans offset)
    rw [hk.attributesInPrevious hnone] at hchild
    exact hchild

end Declares

/-! ## The invariant -/

section Invariant

variable {h h' : Structures Name Cell} {s s' : Structure Name Cell} {i : StructureID}
  {v : List (Property Name)}

/-- A pinned structure has an exact table and nothing above it.  Only an uncacheable dictionary has
deleted offsets. -/
structure Pinned (s : Structure Name Cell) : Prop where
  pinned : s.isPinnedPropertyTable = true
  previous : s.previous = none
  table : ∃ t, s.propertyTable = some t ∧ t.Exact
    ∧ (s.dictionaryKind ≠ uncachedDictionaryKind → t.deletedOffsets = [])

/-- A structure that is not pinned declares properties whose offsets count the storage, and its
table, if it has one, has these properties. -/
structure Unpinned (h : Structures Name Cell) (i : StructureID) (s : Structure Name Cell)
    (v : List (Property Name)) : Prop where
  unpinned : s.isPinnedPropertyTable = false
  kind : s.dictionaryKind = noneDictionaryKind
  declares : Declares h i v
  offsets : (v.map (·.2.1)).Perm (List.range v.length)
  table : ∀ t, s.propertyTable = some t → t.properties = v ∧ t.deletedOffsets = []

/-- Every structure is of one of the two kinds. -/
def Invariant (h : Structures Name Cell) : Prop :=
  ∀ (i : StructureID) (s : Structure Name Cell), h[i]? = some s → Pinned s ∨ ∃ v, Unpinned h i s v

variable (hinv : Invariant h)

include hinv

theorem Invariant.kind : ∀ (j : StructureID) (s : Structure Name Cell),
    h[j]? = some s → s.isPinnedPropertyTable = false → s.dictionaryKind = noneDictionaryKind := by
  intro j s hs hp
  rcases hinv j s hs with hpinned | ⟨v, hunpinned⟩
  · exact absurd (hp.symm.trans hpinned.pinned) Bool.false_ne_true
  · exact hunpinned.kind

/-- The table of any structure is exact. -/
theorem Invariant.exact (hs : h[i]? = some s) (ht : s.propertyTable = some t) : t.Exact := by
  rcases hinv i s hs with hpinned | ⟨v, hunpinned⟩
  · obtain ⟨t', ht', hexact, -⟩ := hpinned.table
    obtain rfl := Option.some.inj (ht.symm.trans ht')
    exact hexact
  · obtain ⟨rfl, hdeleted⟩ := hunpinned.table t ht
    exact (PropertyTable.exact_iff_of_deletedOffsets_eq_nil hdeleted).mpr hunpinned.offsets

/-- Only an uncacheable dictionary has deleted offsets. -/
theorem Invariant.deletedOffsets (hs : h[i]? = some s) (ht : s.propertyTable = some t)
    (hk : s.dictionaryKind ≠ uncachedDictionaryKind) : t.deletedOffsets = [] := by
  rcases hinv i s hs with hpinned | ⟨v, hunpinned⟩
  · obtain ⟨t', ht', -, hdeleted⟩ := hpinned.table
    obtain rfl := Option.some.inj (ht.symm.trans ht')
    exact hdeleted hk
  · exact (hunpinned.table t ht).2

theorem Unpinned.mono (hu : Unpinned h i s v) (he : Extends h h') :
    Unpinned h' i s v :=
  { hu with declares := hu.declares.mono he hinv.kind }

/-- The invariant after a step that keeps the other structures. -/
theorem Invariant.of_extends (he : Extends h h')
    (hcells : ∀ (i : StructureID) (s : Structure Name Cell), h'[i]? = some s →
      h[i]? = some s ∨ Pinned s ∨ ∃ v, Unpinned h' i s v) :
    Invariant h' := by
  intro i s hs
  rcases hcells i s hs with hold | hnew
  · rcases hinv i s hold with hpinned | ⟨v, hunpinned⟩
    · exact .inl hpinned
    · exact .inr ⟨v, hunpinned.mono hinv he⟩
  · exact hnew

/-- A step of the heap: the invariant holds after it and what was declared is declared. -/
def Advances (h h' : Structures Name Cell) : Prop := Invariant h' ∧ Extends h h'

theorem Invariant.advances_refl : Advances h h := ⟨hinv, .refl h⟩

omit hinv in
theorem Advances.trans (ha : Advances h h') (ha' : Advances h' h'') :
    Advances h h'' := ⟨ha'.1, ha.2.trans ha'.2⟩

/-- Writing one cell. -/
theorem Invariant.set (hs : h[i]? = some s) (hk : Keeps s s')
    (hnew : Pinned s' ∨ ∃ v, Unpinned h i s' v) : Advances h (h.set i s') := by
  have he := Extends.set hs hk
  refine ⟨hinv.of_extends he ?_, he⟩
  intro j u hu
  by_cases hij : i = j
  · subst hij
    rw [List.getElem?_set_self (List.getElem?_eq_some_iff.mp hs).1] at hu
    obtain rfl := Option.some.inj hu
    exact .inr (hnew.imp id fun ⟨v, hv⟩ => ⟨v, hv.mono hinv he⟩)
  · rw [List.getElem?_set_ne hij] at hu
    exact .inl hu

/-- Allocating a cell. -/
theorem Invariant.append
    (hnew : Pinned s ∨ ∃ v, Unpinned (h ++ [s]) h.length s v) : Advances h (h ++ [s]) := by
  have he := Extends.append h [s]
  refine ⟨hinv.of_extends he ?_, he⟩
  intro j u hu
  rcases Nat.lt_or_ge j h.length with hlt | hge
  · rw [List.getElem?_append_left hlt] at hu
    exact .inl hu
  · rw [List.getElem?_append_right hge, List.getElem?_singleton] at hu
    split at hu
    · rename_i hzero
      obtain rfl := Nat.le_antisymm (Nat.sub_eq_zero_iff_le.mp hzero) hge
      obtain rfl := Option.some.inj hu
      exact .inr hnew
    · cases hu

end Invariant

end JavaScriptCore
end WebKit
