import Mathlib

/-!
# StorageMap

The items of a local or session storage with the sum of their lengths, in which 32 bits are counted
and whose limit is the quota, and with the position of the last `key(index)`.  Every function that
changes the map gives that position up, except `importItem`.

* `Sound`: the sum is right, and the position is that of its index.
* `Allowed`: an item is imported under a new key, while there is no position and into a map that is
  not shared, and no sum reaches `2 ^ 32`.
* `accounts_of_reachable`: in every run of allowed operations the sum, the quota and the keys are
  right.
-/

namespace WebKit

open List
namespace Storage

/-! ## The data -/

structure WTFString where
  characters : List UInt16
  length_lt : characters.length < 2 ^ 32
  deriving DecidableEq

def WTFString.length (s : WTFString) : ℕ := s.characters.length

abbrev Item := WTFString × WTFString

/-- How a hash table is left when items are added or removed: in an order of its own, and it may be
allocated anew. -/
structure Placement where
  order : List Item → List Item
  perm : ∀ items, (order items).Perm items
  rehashes : Bool

/-- The items are in the order of the hash table.  An iterator stands at a key, or nowhere; the index
is none for `UINT_MAX`. -/
structure StorageMap where
  map : List Item
  iterator : Option WTFString
  iteratorIndex : Option ℕ
  quotaSize : ℕ
  currentLength : ℕ

namespace StorageMap

def noQuota : ℕ := 2 ^ 32 - 1

def create (quotaSize : ℕ) : StorageMap := ⟨[], none, none, quotaSize, 0⟩

variable (m : StorageMap) (place : Placement)

def keys : List WTFString := m.map.map Prod.fst

def length : ℕ := m.map.length

def getItem (key : WTFString) : Option WTFString := m.map.lookup key

/-- The items with other keys. -/
def others (key : WTFString) : List Item := m.map.filter fun item => item.1 ≠ key

/-- The hash table has got other items. -/
def withItems (items : List Item) : StorageMap :=
  { m with
    map := place.order items
    iterator := if place.rehashes then none else m.iterator }

def copy : StorageMap :=
  { create m.quotaSize with map := place.order m.map, currentLength := m.currentLength }

def invalidateIterator : StorageMap := { m with iterator := none, iteratorIndex := none }

/-! ## The keys by their indices -/

/-- `++m_iterator` -/
def next (iterator : Option WTFString) : Option WTFString :=
  iterator.bind fun key => m.keys[m.keys.idxOf key + 1]?

def advance : ℕ → Option WTFString → Option WTFString
  | 0, iterator => iterator
  | count + 1, iterator => advance count (m.next iterator)

def setIteratorToIndex (index : ℕ) : StorageMap :=
  if m.iteratorIndex = some index then m
  else
    match m.iteratorIndex.filter (· ≤ index) with
    | none => { m with iterator := m.advance index m.keys.head?, iteratorIndex := some index }
    | some i => { m with iterator := m.advance (index - i) m.iterator, iteratorIndex := some index }

/-- The key, or a null string.  The answer is none when the iterator stands nowhere. -/
def key (index : ℕ) : StorageMap × Option (Option WTFString) :=
  if m.length ≤ index then (m, some none)
  else (m.setIteratorToIndex index, (m.setIteratorToIndex index).iterator.map some)

/-! ## The mutations -/

/-- The map after a mutation, the map that is returned instead when it is shared, and what else is
set. -/
structure Mutation where
  map : StorageMap
  returned : Option StorageMap := none
  oldValue : Option WTFString
  quotaException : Bool := false

/-- The map that the caller goes on with. -/
def Mutation.current (r : Mutation) : StorageMap := r.returned.getD r.map

/-- The copy-on-write semantics: a shared map is copied, and the copy is mutated and returned. -/
def copyOnWrite (shared : Bool) (mutate : StorageMap → Mutation) : Mutation :=
  if shared then
    let r := mutate (m.copy place)
    { r with map := m, returned := some r.map }
  else mutate m

/-- The length with an item set, and whether a step of the sum wrapped. -/
def lengthAfter (key value : WTFString) : ℕ × Bool :=
  let newLength := m.currentLength
  let sum := (newLength + value.length) % 2 ^ 32
  let overflow := decide (sum < newLength)
  let newLength := sum
  let oldValue := m.getItem key
  let difference := (newLength + 2 ^ 32 - (oldValue.elim 0 (·.length))) % 2 ^ 32
  let overflow := overflow || decide (newLength < difference)
  let newLength := difference
  let adjustedKeyLength := if oldValue.isNone then key.length else 0
  let sum := (newLength + adjustedKeyLength) % 2 ^ 32
  (sum, overflow || decide (sum < newLength))

def setItemOwned (key value : WTFString) : Mutation :=
  let (newLength, overflow) := m.lengthAfter key value
  let overQuota := decide (m.quotaSize / 2 < newLength)
  if m.quotaSize ≠ noQuota ∧ (overflow || overQuota) = true then
    { map := m, oldValue := m.getItem key, quotaException := true }
  else
    { map := ({ m with currentLength := newLength }.withItems place
        ((key, value) :: m.others key)).invalidateIterator
      oldValue := m.getItem key }

def setItem (shared : Bool) (key value : WTFString) : Mutation :=
  m.copyOnWrite place shared fun m => m.setItemOwned place key value

def removeItemOwned (key : WTFString) : Mutation :=
  let oldValue := m.getItem key
  let m := if oldValue.isNone then m else
    { (m.withItems place (m.others key)).invalidateIterator with
      currentLength := (m.currentLength + 2 ^ 32 - key.length) % 2 ^ 32 }
  { map := { m with
      currentLength := (m.currentLength + 2 ^ 32 - oldValue.elim 0 (·.length)) % 2 ^ 32 }
    oldValue := oldValue }

def removeItem (shared : Bool) (key : WTFString) : Mutation :=
  m.copyOnWrite place shared fun m => m.removeItemOwned place key

/-- Nothing is added under a key that is there.  The map is mutated in place, shared or not. -/
def importItem (key value : WTFString) : StorageMap :=
  { (if (m.getItem key).isSome then m else m.withItems place ((key, value) :: m.map)) with
    currentLength := ((m.currentLength + key.length) % 2 ^ 32 + value.length) % 2 ^ 32 }

/-! ## Runs -/

inductive Operation
  | setItem (place : Placement) (shared : Bool) (key value : WTFString)
  | removeItem (place : Placement) (shared : Bool) (key : WTFString)
  | importItem (place : Placement) (shared : Bool) (key value : WTFString)
  | copy (place : Placement)
  | key (index : ℕ)

/-- A mutation that is called while more than one storage object has the map. -/
def Operation.IsShared : Operation → Prop
  | .setItem _ shared _ _ | .removeItem _ shared _ | .importItem _ shared _ _ => shared = true
  | _ => False

/-- The map that the caller goes on with. -/
def step : Operation → StorageMap
  | .setItem place shared key value => (m.setItem place shared key value).current
  | .removeItem place shared key => (m.removeItem place shared key).current
  | .importItem place _ key value => m.importItem place key value
  | .copy place => m.copy place
  | .key index => (m.key index).1

/-- The map on which the operation was called, as the other storage objects see it. -/
def original : Operation → StorageMap
  | .setItem place shared key value => (m.setItem place shared key value).map
  | .removeItem place shared key => (m.removeItem place shared key).map
  | .importItem place _ key value => m.importItem place key value
  | .copy _ => m
  | .key index => (m.key index).1

/-- The lengths of keys and values. -/
def totalLength (items : List Item) : ℕ := (items.map fun item => item.1.length + item.2.length).sum

/-- The condition on a step. -/
def Allowed : Operation → Prop
  | .setItem _ _ key value =>
    m.quotaSize = noQuota → totalLength (m.others key) + key.length + value.length < 2 ^ 32
  | .importItem _ shared key value => shared = false ∧ key ∉ m.keys ∧ m.iteratorIndex = none ∧
      totalLength m.map + key.length + value.length < 2 ^ 32
  | _ => True

/-- The maps that come from a new one by allowed operations. -/
inductive Reachable (quotaSize : ℕ) : StorageMap → Prop
  | create : Reachable quotaSize (create quotaSize)
  | step {m : StorageMap} {operation : Operation} (h : Reachable quotaSize m)
      (hallowed : m.Allowed operation) : Reachable quotaSize (m.step operation)

/-- Keys at indices, asked for one after the other. -/
def askKeys : List ℕ → StorageMap → List (Option (Option WTFString))
  | [], _ => []
  | index :: indices, m => (m.key index).2 :: askKeys indices (m.key index).1

/-! ## Soundness -/

structure Sound : Prop where
  keys_nodup : m.keys.Nodup
  currentLength_eq : m.currentLength = totalLength m.map
  currentLength_lt : m.currentLength < 2 ^ 32
  iterator_eq : ∀ i ∈ m.iteratorIndex, i < m.length ∧ m.iterator = m.keys[i]?

variable {m place}

theorem totalLength_perm {items items' : List Item} (h : items.Perm items') :
    totalLength items = totalLength items' := (h.map _).sum_eq

theorem totalLength_cons (item : Item) (items : List Item) :
    totalLength (item :: items) = item.1.length + item.2.length + totalLength items := by
  simp [totalLength]

theorem getItem_eq_none_iff {key : WTFString} : m.getItem key = none ↔ key ∉ m.keys := by
  rw [getItem, lookup_eq_none_iff, keys, mem_map]
  constructor
  · rintro h ⟨item, hitem, rfl⟩
    simpa using h item hitem
  · intro h item hitem
    simpa using fun hkey : key = item.1 => h ⟨item, hitem, hkey.symm⟩

theorem others_of_notMem {key : WTFString} (h : key ∉ m.keys) : m.others key = m.map :=
  filter_eq_self.mpr fun item hitem => decide_eq_true fun hkey =>
    h (mem_map.mpr ⟨item, hitem, hkey⟩)

/-- The items are the one under a key and the others. -/
theorem totalLength_others (h : m.keys.Nodup) {key : WTFString} (hold : m.getItem key = some old) :
    totalLength m.map = key.length + old.length + totalLength (m.others key) := by
  rw [getItem] at hold
  rw [others]
  rw [keys] at h
  generalize m.map = items at h hold
  induction items with
  | nil => cases hold
  | cons item items ih =>
    obtain ⟨hnew, hnodup⟩ := nodup_cons.mp h
    rw [totalLength_cons]
    by_cases hkey : key = item.1
    · subst hkey
      rw [lookup_cons_self] at hold
      obtain rfl := Option.some_inj.mp hold
      have hsame : items.filter (fun other => other.1 ≠ item.1) = items :=
        filter_eq_self.mpr fun other hother => decide_eq_true fun hkey =>
          hnew (hkey ▸ mem_map_of_mem hother)
      rw [filter_cons_of_neg (by simp), hsame]
    · rw [lookup_cons, beq_false_of_ne hkey] at hold
      rw [filter_cons_of_pos (by simpa using Ne.symm hkey), totalLength_cons, ih hnodup hold]
      omega

theorem keys_order_nodup {items : List Item} (h : (items.map Prod.fst).Nodup) :
    ((place.order items).map Prod.fst).Nodup := (((place.perm items).map Prod.fst).nodup_iff).mpr h

theorem cons_others_nodup (h : m.keys.Nodup) (key value : WTFString) :
    (((key, value) :: m.others key).map Prod.fst).Nodup := by
  refine nodup_cons.mpr ⟨fun hkey => ?_, h.sublist (filter_sublist.map _)⟩
  obtain ⟨item, hitem, heq⟩ := mem_map.mp hkey
  exact of_decide_eq_true (mem_filter.mp hitem).2 heq

theorem Sound.create (quotaSize : ℕ) : (create quotaSize).Sound :=
  ⟨nodup_nil, rfl, Nat.two_pow_pos 32, nofun⟩

theorem Sound.copy (h : m.Sound) (place : Placement) : (m.copy place).Sound :=
  ⟨keys_order_nodup h.keys_nodup,
    h.currentLength_eq.trans (totalLength_perm (place.perm m.map)).symm, h.currentLength_lt, nofun⟩

/-! ### The keys -/

theorem next_eq (h : m.keys.Nodup) (hi : i < m.keys.length) :
    m.next m.keys[i]? = m.keys[i + 1]? := by
  rw [next, List.getElem?_eq_getElem hi, Option.bind_some, h.idxOf_getElem]

theorem advance_eq (h : m.keys.Nodup) (count : ℕ) (hi : i + count < m.keys.length) :
    m.advance count m.keys[i]? = m.keys[i + count]? := by
  induction count generalizing i with
  | zero => rfl
  | succ count ih =>
    rw [advance, next_eq h (by omega), ih (by omega)]
    congr 1
    omega

theorem length_keys : m.keys.length = m.length := length_map _

variable (h : m.Sound)

include h

theorem Sound.setIteratorToIndex (hindex : index < m.length) :
    ∃ iterator, m.setIteratorToIndex index =
      { m with iterator := iterator, iteratorIndex := some index } ∧ iterator = m.keys[index]? := by
  have hlength : index < m.keys.length := length_keys.symm ▸ hindex
  rw [StorageMap.setIteratorToIndex]
  by_cases hsame : m.iteratorIndex = some index
  · refine ⟨m.iterator, ?_, (h.iterator_eq index hsame).2⟩
    rw [if_pos hsame, ← hsame]
  · rw [if_neg hsame]
    cases hfrom : m.iteratorIndex.filter (· ≤ index) with
    | none =>
      refine ⟨_, rfl, ?_⟩
      have hhead : m.keys.head? = m.keys[0]? := List.head?_eq_getElem?
      rw [hhead, advance_eq h.keys_nodup index (by omega), Nat.zero_add]
    | some i =>
      obtain ⟨hi, hle⟩ := Option.filter_eq_some_iff.mp hfrom
      have hle := of_decide_eq_true hle
      refine ⟨_, rfl, ?_⟩
      rw [(h.iterator_eq i hi).2, advance_eq h.keys_nodup (index - i) (by omega),
        Nat.add_sub_cancel' hle]

theorem Sound.key (index : ℕ) : (m.key index).1.Sound ∧ (m.key index).1.map = m.map ∧
      (m.key index).2 = some m.keys[index]? := by
  rw [StorageMap.key]
  by_cases hindex : m.length ≤ index
  · rw [if_pos hindex, List.getElem?_eq_none (length_keys.symm ▸ hindex)]
    exact ⟨h, rfl, rfl⟩
  · obtain ⟨iterator, heq, hiterator⟩ := h.setIteratorToIndex (Nat.lt_of_not_le hindex)
    rw [if_neg hindex, heq]
    refine ⟨⟨h.keys_nodup, h.currentLength_eq, h.currentLength_lt, ?_⟩, rfl, ?_⟩
    · rintro i ⟨⟩
      exact ⟨Nat.lt_of_not_le hindex, hiterator⟩
    · rw [hiterator, List.getElem?_eq_getElem (length_keys.symm ▸ Nat.lt_of_not_le hindex)]
      rfl

theorem Sound.askKeys (indices : List ℕ) :
    askKeys indices m = indices.map fun index => some m.keys[index]? := by
  induction indices generalizing m with
  | nil => rfl
  | cons index indices ih =>
    obtain ⟨hnext, hmap, hkey⟩ := h.key index
    have hkeys : (m.key index).1.keys = m.keys := congrArg (List.map Prod.fst) hmap
    rw [StorageMap.askKeys, ih hnext, hkey, hkeys, map_cons]

/-! ### The mutations -/

/-- The sum is right when no step wraps, and when the result has 32 bits. -/
theorem Sound.lengthAfter (key value : WTFString) :
    (m.lengthAfter key value).2 = false ∨
        totalLength (m.others key) + key.length + value.length < 2 ^ 32 →
      (m.lengthAfter key value).1 = totalLength (m.others key) + key.length + value.length := by
  have hlt := h.currentLength_lt
  have hvalue : value.length < 2 ^ 32 := value.length_lt
  have hkey : key.length < 2 ^ 32 := key.length_lt
  rw [StorageMap.lengthAfter]
  cases hget : m.getItem key with
  | none =>
    have htotal := h.currentLength_eq
    rw [← others_of_notMem (getItem_eq_none_iff.mp hget)] at htotal
    simp only [Option.elim_none, Option.isNone_none, if_true, Bool.or_eq_false_iff,
      decide_eq_false_iff_not]
    omega
  | some old =>
    have htotal := h.currentLength_eq.trans (totalLength_others h.keys_nodup hget)
    simp only [Option.elim_some, Option.isNone_some, Bool.false_eq_true, if_false,
      Bool.or_eq_false_iff, decide_eq_false_iff_not]
    omega

/-- What setting an item does to a map that is not shared. -/
theorem Sound.setItemOwned (place : Placement) (key value : WTFString) :
    (m.setItemOwned place key value).returned = none ∧
      ((m.setItemOwned place key value).quotaException = true →
        (m.setItemOwned place key value).map = m) ∧
      (m.quotaSize ≠ noQuota → (m.setItemOwned place key value).quotaException = false →
        (m.setItemOwned place key value).map.currentLength ≤ m.quotaSize / 2) ∧
      (m.Allowed (.setItem place false key value) →
        (m.setItemOwned place key value).map.Sound) := by
  have hsum := h.lengthAfter key value
  have hlength : (m.lengthAfter key value).1 < 2 ^ 32 := Nat.mod_lt _ (Nat.two_pow_pos 32)
  rw [StorageMap.setItemOwned]
  generalize m.lengthAfter key value = after at hsum hlength
  obtain ⟨newLength, overflow⟩ := after
  dsimp only at hsum hlength ⊢
  by_cases hquota : m.quotaSize ≠ noQuota ∧
      (overflow || decide (m.quotaSize / 2 < newLength)) = true
  · rw [if_pos hquota]
    exact ⟨rfl, fun _ => rfl, fun _ => nofun, fun _ => h⟩
  · rw [if_neg hquota]
    have hfine (hne : m.quotaSize ≠ noQuota) : overflow = false ∧ newLength ≤ m.quotaSize / 2 := by
      simpa using not_and.mp hquota hne
    refine ⟨rfl, nofun, fun hne _ => (hfine hne).2, fun hallowed => ?_⟩
    have hnew : totalLength (place.order ((key, value) :: m.others key)) =
        key.length + value.length + totalLength (m.others key) :=
      (totalLength_perm (place.perm _)).trans (totalLength_cons _ _)
    have hright : newLength = totalLength (m.others key) + key.length + value.length := by
      by_cases hne : m.quotaSize = noQuota
      · exact hsum (.inr (hallowed hne))
      · exact hsum (.inl (hfine hne).1)
    refine ⟨keys_order_nodup (cons_others_nodup h.keys_nodup key value), ?_, hlength, nofun⟩
    change newLength = totalLength (place.order _)
    omega

theorem Sound.removeItemOwned (place : Placement) (key : WTFString) :
    (m.removeItemOwned place key).returned = none ∧ (m.removeItemOwned place key).map.Sound := by
  have hlt := h.currentLength_lt
  have hlength := h.currentLength_eq
  rw [StorageMap.removeItemOwned]
  cases hget : m.getItem key with
  | none =>
    have hsame : (m.currentLength + 2 ^ 32 - 0) % 2 ^ 32 = m.currentLength := by omega
    simp only [Option.isNone_none, if_true, Option.elim_none, hsame]
    exact ⟨trivial, h⟩
  | some old =>
    have htotal := totalLength_others h.keys_nodup hget
    have hothers := totalLength_perm (place.perm (m.others key))
    have hnew : ((m.currentLength + 2 ^ 32 - key.length) % 2 ^ 32 + 2 ^ 32 - old.length) % 2 ^ 32 =
        totalLength (place.order (m.others key)) := by omega
    simp only [Option.isNone_some, Bool.false_eq_true, if_false, Option.elim_some, hnew]
    refine ⟨trivial, keys_order_nodup (h.keys_nodup.sublist (filter_sublist.map _)), rfl, ?_, nofun⟩
    change totalLength (place.order (m.others key)) < _
    omega

theorem Sound.importItem {place : Placement} {key : WTFString}
    (hallowed : m.Allowed (.importItem place shared key value)) :
    (m.importItem place key value).Sound := by
  obtain ⟨-, hnew, hindex, hbound⟩ := hallowed
  have hget := getItem_eq_none_iff.mpr hnew
  have hitems : totalLength (place.order ((key, value) :: m.map)) =
      key.length + value.length + totalLength m.map :=
    (totalLength_perm (place.perm _)).trans (totalLength_cons _ _)
  have hlength := h.currentLength_eq
  have hadded : (if (m.getItem key).isSome then m else
      m.withItems place ((key, value) :: m.map)) = m.withItems place ((key, value) :: m.map) := by
    rw [hget]
    rfl
  rw [StorageMap.importItem, hadded]
  have hnodup : ((key, value) :: m.map).map Prod.fst |>.Nodup := nodup_cons.mpr ⟨hnew, h.keys_nodup⟩
  refine ⟨keys_order_nodup hnodup, ?_, Nat.mod_lt _ (Nat.two_pow_pos 32), fun i hi => ?_⟩
  · change ((m.currentLength + key.length) % 2 ^ 32 + value.length) % 2 ^ 32 =
      totalLength (place.order _)
    omega
  · change i ∈ m.iteratorIndex at hi
    rw [hindex] at hi
    cases hi

theorem Sound.step {operation : Operation} (hallowed : m.Allowed operation) :
    (m.step operation).Sound := by
  cases operation with
  | setItem place shared key value =>
    cases shared with
    | false =>
      obtain ⟨hreturned, -, -, hsound⟩ := h.setItemOwned place key value
      change ((m.setItemOwned place key value).returned.getD _).Sound
      rw [hreturned]
      exact hsound hallowed
    | true =>
      obtain ⟨-, -, -, hsound⟩ := (h.copy place).setItemOwned place key value
      refine hsound fun hne => ?_
      have hothers : ((m.copy place).others key).Perm (m.others key) := (place.perm m.map).filter _
      rw [totalLength_perm hothers]
      exact hallowed hne
  | removeItem place shared key =>
    cases shared with
    | false =>
      obtain ⟨hreturned, hsound⟩ := h.removeItemOwned place key
      exact hsound
    | true => exact ((h.copy place).removeItemOwned place key).2
  | importItem place shared key value => exact h.importItem hallowed
  | copy place => exact h.copy place
  | key index => exact (h.key index).1

omit h

theorem Reachable.sound {quotaSize : ℕ} (h : Reachable quotaSize m) : m.Sound := by
  induction h with
  | create => exact Sound.create quotaSize
  | step _ hallowed ih => exact ih.step hallowed

/-! ## The account -/

/-- What holds of a map: the sum of the lengths; the keys by their indices; what setting an item
leaves; and that a shared map is as it was after an allowed mutation. -/
structure Accounts (m : StorageMap) : Prop where
  currentLength_eq : m.currentLength = totalLength m.map
  keys_once : m.keys.Nodup
  keys_eq : ∀ indices : List ℕ, (∀ index ∈ indices, index < m.length) →
    askKeys indices m = indices.map fun index => some m.keys[index]?
  quota : ∀ place shared key value, m.quotaSize ≠ noQuota →
    (m.setItem place shared key value).quotaException = false →
      (m.setItem place shared key value).current.currentLength ≤ m.quotaSize / 2
  exception : ∀ place shared key value, (m.setItem place shared key value).quotaException = true →
      (m.setItem place shared key value).current.map.Perm m.map ∧
        (m.setItem place shared key value).current.currentLength = m.currentLength
  shared : ∀ operation : Operation, operation.IsShared → m.Allowed operation →
    m.original operation = m

/-- The copy is mutated, and an item is not imported into a shared map. -/
theorem original_of_isShared {operation : Operation} (hshared : operation.IsShared)
    (hallowed : m.Allowed operation) : m.original operation = m := by
  cases operation with
  | setItem place shared key value =>
    obtain rfl : shared = true := hshared
    rfl
  | removeItem place shared key =>
    obtain rfl : shared = true := hshared
    rfl
  | importItem place shared key value =>
    obtain rfl : shared = true := hshared
    cases hallowed.1
  | copy place => cases hshared
  | key index => cases hshared

/-- In every run of allowed operations the account is right. -/
theorem accounts_of_reachable {quotaSize : ℕ} (h : Reachable quotaSize m) : Accounts m := by
  have hsound := h.sound
  refine ⟨hsound.currentLength_eq, hsound.keys_nodup, fun indices _ => hsound.askKeys indices,
    fun place shared key value hne hexception => ?_, fun place shared key value hexception => ?_,
    fun operation => original_of_isShared⟩
  · cases shared with
    | false =>
      obtain ⟨hreturned, -, hquota, -⟩ := hsound.setItemOwned place key value
      change ((m.setItemOwned place key value).returned.getD _).currentLength ≤ _
      rw [hreturned]
      exact hquota hne hexception
    | true =>
      obtain ⟨-, -, hquota, -⟩ := (hsound.copy place).setItemOwned place key value
      exact hquota hne hexception
  · cases shared with
    | false =>
      obtain ⟨hreturned, hsame, -, -⟩ := hsound.setItemOwned place key value
      have hcurrent : (m.setItem place false key value).current = m := by
        change (m.setItemOwned place key value).returned.getD _ = m
        rw [hreturned]
        exact hsame hexception
      rw [hcurrent]
      exact ⟨List.Perm.refl _, rfl⟩
    | true =>
      obtain ⟨-, hsame, -, -⟩ := (hsound.copy place).setItemOwned place key value
      have hcurrent : (m.setItem place true key value).current = m.copy place := hsame hexception
      rw [hcurrent]
      exact ⟨place.perm m.map, rfl⟩

/-- An item is set, asked for and removed while the map is shared; then another one is imported. -/
theorem accounts_of_reachable_one :
    let place : Placement := ⟨id, fun _ => .refl _, true⟩
    let letter (c : UInt16) : WTFString := ⟨[c], Nat.one_lt_two_pow (by decide)⟩
    Accounts (((((create 10).step (.setItem place false (letter 0x61) (letter 0x62))).step
      (.key 0)).step (.removeItem place true (letter 0x61))).step
        (.importItem place false (letter 0x63) (letter 0x64))) :=
  accounts_of_reachable (.step (.step (.step (.step .create fun h => absurd h (by decide)) trivial)
    trivial) ⟨rfl, by decide, rfl, by decide⟩)

/-- An item that is imported after `key(0)` leaves the iterator where it was. -/
theorem not_accounts_imported : ¬∀ operations : List Operation,
    Accounts (operations.foldl step (create noQuota)) := by
  intro h
  let place : Placement := ⟨id, fun _ => .refl _, false⟩
  have hkeys := (h [.importItem place false ⟨[0x62], by decide⟩ ⟨[], by decide⟩, .key 0,
    .importItem place false ⟨[0x61], by decide⟩ ⟨[], by decide⟩]).keys_eq [0] (by decide)
  exact absurd hkeys (by decide)

end StorageMap
end Storage
end WebKit
