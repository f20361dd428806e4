import Mathlib

/-!
# The back-forward list

`history/BackForwardListImpl.cpp`, with `unsigned` and `size_t` as natural numbers that wrap.  The
index of no item is the largest `unsigned`, so the assertions of `goBack` and `goForward` hold of an
empty list, and the index is moved there.

* `sound_of_guarded_run`: the list is right in every run that does not go back or forward where it
  is empty.
-/

namespace WebKit.History

open List

def NoCurrentItemIndex : ℕ := 2 ^ 32 - 1

def increment (n : ℕ) : ℕ := (n + 1) % 2 ^ 32

def decrement (n : ℕ) : ℕ := (n + (2 ^ 32 - 1)) % 2 ^ 32

/-- The conversion of an `unsigned` to an `int`. -/
def toInt (n : ℕ) : ℤ := if n % 2 ^ 32 < 2 ^ 31 then (n % 2 ^ 32 : ℕ) else (n % 2 ^ 32 : ℕ) - 2 ^ 32

/-- `size() - 1`, of a `size_t`. -/
def lastIndex (size : ℕ) : ℕ := (size + (2 ^ 64 - 1)) % 2 ^ 64

structure BackForwardListImpl (α : Type) where
  m_entries : List α := []
  m_entryHash : Finset α := ∅
  m_current : ℕ := NoCurrentItemIndex
  m_capacity : ℕ := 100
  m_enabled : Bool := true

variable {α : Type}

namespace BackForwardListImpl

/-! ## The operations -/

variable (s : BackForwardListImpl α)

def backListCount : ℤ :=
  if s.m_current = NoCurrentItemIndex then 0 else toInt s.m_current

def forwardListCount : ℤ :=
  if s.m_current = NoCurrentItemIndex then 0
  else toInt (s.m_entries.length + (2 ^ 32 - increment s.m_current))

/-- The item, or null; `none` is an index out of range. -/
def itemAtIndex (index : ℤ) : Option (Option α) :=
  if index < -toInt s.m_current then some none
  else if index > s.forwardListCount then some none
  else (s.m_entries[((index + s.m_current) % 2 ^ 32).toNat]?).map some

variable [DecidableEq α]

variable (s : BackForwardListImpl α)

def removeLast : BackForwardListImpl α :=
  match s.m_entries.getLast? with
  | none => s
  | some item =>
    { s with m_entries := s.m_entries.dropLast, m_entryHash := s.m_entryHash.erase item }

/-- The loops that remove items from the end, with the number of turns at most. -/
def removeLastWhile (targetSize : ℕ) : ℕ → BackForwardListImpl α → BackForwardListImpl α
  | 0, s => s
  | fuel + 1, s =>
    if targetSize < s.m_entries.length then removeLastWhile targetSize fuel s.removeLast else s

def removeFirst : BackForwardListImpl α :=
  match s.m_entries with
  | [] => s
  | item :: rest => { s with m_entries := rest, m_entryHash := s.m_entryHash.erase item }

/-- Toss the forward list. -/
def tossForwardList : BackForwardListImpl α :=
  if s.m_current ≠ NoCurrentItemIndex then
    removeLastWhile (increment s.m_current) s.m_entries.length s
  else s

/-- Toss the first item if the list is full. -/
def tossFirst : BackForwardListImpl α :=
  if s.m_entries.length = s.m_capacity ∧ (s.m_current ≠ 0 ∨ s.m_capacity = 1) then
    { s.removeFirst with m_current := decrement s.m_current }
  else s

def addItem (item : α) : BackForwardListImpl α :=
  if s.m_capacity = 0 ∨ !s.m_enabled then s
  else
    let s := s.tossForwardList.tossFirst
    { s with
      m_entries := s.m_entries.insertIdx (increment s.m_current) item
      m_entryHash := insert item s.m_entryHash
      m_current := increment s.m_current }

def goBack : BackForwardListImpl α :=
  if 0 < s.m_current then { s with m_current := decrement s.m_current } else s

def goForward : BackForwardListImpl α :=
  if s.m_current < lastIndex s.m_entries.length then
    { s with m_current := increment s.m_current }
  else s

def goToItem (item : α) : BackForwardListImpl α :=
  let index := s.m_entries.idxOf item
  if index < s.m_entries.length then { s with m_current := index } else s

def setCapacity (size : ℕ) : BackForwardListImpl α :=
  let s := removeLastWhile size s.m_entries.length s
  let current :=
    if size = 0 then NoCurrentItemIndex
    else if lastIndex s.m_entries.length < s.m_current then
      lastIndex s.m_entries.length % 2 ^ 32
    else s.m_current
  { s with m_current := current, m_capacity := size }

def setEnabled (enabled : Bool) : BackForwardListImpl α :=
  let s := { s with m_enabled := enabled }
  if !enabled then (s.setCapacity 0).setCapacity s.m_capacity else s

def removeItem (item : α) : BackForwardListImpl α :=
  let i := s.m_entries.idxOf item
  if i < s.m_entries.length then
    let s := { s with
      m_entries := s.m_entries.eraseIdx i, m_entryHash := s.m_entryHash.erase item }
    if s.m_current = NoCurrentItemIndex ∨ s.m_current < i then s
    else if i < s.m_current then { s with m_current := decrement s.m_current }
    else if s.m_entries.length ≤ s.m_current then
      { s with m_current := if s.m_entries.length ≠ 0 then s.m_entries.length - 1
          else NoCurrentItemIndex }
    else s
  else s

inductive Operation (α : Type)
  | addItem (item : α)
  | goBack
  | goForward
  | goToItem (item : α)
  | removeItem (item : α)
  | setCapacity (size : ℕ)
  | setEnabled (enabled : Bool)

def perform : Operation α → BackForwardListImpl α
  | .addItem item => s.addItem item
  | .goBack => s.goBack
  | .goForward => s.goForward
  | .goToItem item => s.goToItem item
  | .removeItem item => s.removeItem item
  | .setCapacity size => s.setCapacity size
  | .setEnabled enabled => s.setEnabled enabled

/-- New items, assertions that hold, and capacities that are no negative `int`. -/
def Allowed : Operation α → Prop
  | .addItem item => item ∉ s.m_entries
  | .goBack => 0 < s.m_current
  | .goForward => s.m_current < lastIndex s.m_entries.length
  | .setCapacity size => size < 2 ^ 31
  | _ => True

/-- There is an item to go back or forward from. -/
def HasItem : Operation α → Prop
  | .goBack | .goForward => s.m_entries ≠ []
  | _ => True

/-- What a run whose steps are of a kind reaches. -/
inductive Reachable (Step : BackForwardListImpl α → Operation α → Prop) :
    BackForwardListImpl α → Prop
  | initial : Reachable Step {}
  | perform {s : BackForwardListImpl α} (h : Reachable Step s) (operation : Operation α)
      (hstep : Step s operation) : Reachable Step (s.perform operation)

/-- What a new item leaves: the items up to the current one, without the oldest where they are as
many as there may be. -/
def kept : List α :=
  let upToCurrent := s.m_entries.take (increment s.m_current)
  if upToCurrent.length = s.m_capacity then upToCurrent.tail else upToCurrent

/-- What is asked of the list. -/
structure Sound (s : BackForwardListImpl α) : Prop where
  current_eq_iff : s.m_current = NoCurrentItemIndex ↔ s.m_entries = []
  current_lt : s.m_entries ≠ [] → s.m_current < s.m_entries.length
  length_le : s.m_entries.length ≤ s.m_capacity
  mem_entryHash : ∀ item, item ∈ s.m_entryHash ↔ item ∈ s.m_entries
  counts : s.m_entries ≠ [] → s.backListCount + s.forwardListCount + 1 = s.m_entries.length
  addItem : ∀ item ∉ s.m_entries, s.m_capacity ≠ 0 → s.m_enabled = true →
    (s.addItem item).m_entries = s.kept ++ [item] ∧ (s.addItem item).m_current = s.kept.length
  itemAtIndex : ∀ index : ℤ, -2 ^ 31 ≤ index → index < 2 ^ 31 → s.itemAtIndex index =
    some (if s.m_entries ≠ [] ∧ 0 ≤ s.m_current + index then
      s.m_entries[(s.m_current + index).toNat]? else none)

/-! ## The invariant -/

/-- The entries are distinct, and those of the table. -/
structure Listed (s : BackForwardListImpl α) : Prop where
  nodup : s.m_entries.Nodup
  mem_entryHash : ∀ item, item ∈ s.m_entryHash ↔ item ∈ s.m_entries

/-- With an index into the list, if there are items. -/
structure Invariant (s : BackForwardListImpl α) : Prop extends Listed s where
  length_le : s.m_entries.length ≤ s.m_capacity
  capacity_lt : s.m_capacity < 2 ^ 31
  current : s.m_entries = [] ∧ s.m_current = NoCurrentItemIndex ∨ s.m_current < s.m_entries.length

variable {s : BackForwardListImpl α} {item : α} {n : ℕ}

theorem increment_eq (h : n < 2 ^ 32 - 1) : increment n = n + 1 := Nat.mod_eq_of_lt (by omega)

theorem increment_decrement (h : n < 2 ^ 32) : increment (decrement n) = n := by
  rw [increment, decrement]
  omega

theorem lastIndex_eq (h : n < 2 ^ 64) (hpos : 0 < n) : lastIndex n = n - 1 := by
  rw [lastIndex]
  omega

theorem Listed.erase (h : s.Listed) (hentries : s.m_entries = front ++ item :: back) :
    Listed { s with m_entries := front ++ back, m_entryHash := s.m_entryHash.erase item } where
  nodup := (hentries ▸ h.nodup).sublist (by simp)
  mem_entryHash other := by
    have hnodup := h.nodup
    rw [hentries, nodup_middle, nodup_cons] at hnodup
    rw [Finset.mem_erase, h.mem_entryHash, hentries]
    constructor
    · rintro ⟨hne, hmem⟩
      simpa [hne] using hmem
    · intro hmem
      refine ⟨fun heq => hnodup.1 (heq ▸ hmem), ?_⟩
      rw [mem_append, mem_cons]
      exact (mem_append.mp hmem).imp_right .inr

theorem Listed.removeLastWhile (h : s.Listed) (hfuel : s.m_entries.length ≤ n + fuel) :
    ∃ hash, removeLastWhile n fuel s =
      { s with m_entries := s.m_entries.take n, m_entryHash := hash } ∧
        Listed (removeLastWhile n fuel s) := by
  induction fuel generalizing s with
  | zero =>
    rw [Nat.add_zero] at hfuel
    exact ⟨s.m_entryHash, by rw [take_of_length_le hfuel]; rfl, h⟩
  | succ fuel ih =>
    rw [BackForwardListImpl.removeLastWhile]
    split_ifs with hlt
    · obtain ⟨front, item, hentries⟩ := (eq_nil_or_concat' s.m_entries).resolve_left
        (ne_nil_of_length_pos (Nat.zero_lt_of_lt hlt))
      have hlast : s.removeLast =
          { s with m_entries := front, m_entryHash := s.m_entryHash.erase item } := by
        simp [removeLast, hentries]
      have hlisted := h.erase hentries
      rw [append_nil] at hlisted
      rw [hentries, length_append, length_singleton] at hfuel hlt
      obtain ⟨hash, heq, hafter⟩ := ih (hlast ▸ hlisted) (by rw [hlast]; dsimp only; omega)
      refine ⟨hash, heq.trans ?_, hafter⟩
      rw [hlast, hentries, take_append_of_le_length (by omega)]
    · exact ⟨s.m_entryHash, by rw [take_of_length_le (not_lt.mp hlt)], h⟩

omit [DecidableEq α] in
theorem initial_invariant : Invariant ({} : BackForwardListImpl α) where
  nodup := nodup_nil
  mem_entryHash item := by simp
  length_le := Nat.zero_le _
  capacity_lt := show 100 < 2 ^ 31 by decide
  current := .inl ⟨rfl, rfl⟩

/-- The current item is the last one, or there is none. -/
structure IsAtEnd (s : BackForwardListImpl α) : Prop extends Listed s where
  current_lt : s.m_current < 2 ^ 32
  length_eq : s.m_entries.length = increment s.m_current

variable (h : s.Invariant)

include h

theorem Invariant.tossForwardList : ∃ hash, s.tossForwardList =
        { s with m_entries := s.m_entries.take (increment s.m_current), m_entryHash := hash } ∧
      s.tossForwardList.IsAtEnd := by
  have hcapacity := h.capacity_lt
  have hlength := h.length_le
  rw [BackForwardListImpl.tossForwardList]
  rcases h.current with ⟨hnil, hcurrent⟩ | hlt
  · rw [if_neg (not_not.mpr hcurrent)]
    exact ⟨s.m_entryHash, by rw [hnil, take_nil, ← hnil], h.toListed, hcurrent ▸ by decide,
      by rw [hnil, hcurrent]; rfl⟩
  · have hne : s.m_current ≠ NoCurrentItemIndex := by
      rw [NoCurrentItemIndex]
      omega
    have hnext := increment_eq (n := s.m_current) (by omega)
    obtain ⟨hash, heq, hlisted⟩ := h.toListed.removeLastWhile (n := increment s.m_current)
      (Nat.le_add_left s.m_entries.length _)
    rw [if_pos hne]
    refine ⟨hash, heq, hlisted, ?_, ?_⟩
    · rw [heq]
      dsimp only
      omega
    · rw [heq, length_take, hnext]
      omega

omit h in
theorem IsAtEnd.tossFirst (h : s.IsAtEnd) (hcapacity : s.m_capacity ≠ 0)
    (hle : s.m_entries.length ≤ s.m_capacity) :
    ∃ hash current, s.tossFirst = { s with
        m_entries := if s.m_entries.length = s.m_capacity then s.m_entries.tail else s.m_entries
        m_entryHash := hash
        m_current := current } ∧
      s.tossFirst.IsAtEnd ∧ s.tossFirst.m_entries.length < s.m_capacity := by
  have hlt := h.current_lt
  have hlength := h.length_eq
  rw [BackForwardListImpl.tossFirst]
  by_cases hfull : s.m_entries.length = s.m_capacity
  · have hcurrent : s.m_current ≠ 0 ∨ s.m_capacity = 1 := by
      by_contra hnot
      rw [not_or, not_not] at hnot
      rw [hnot.1] at hlength
      exact hnot.2 (hfull.symm.trans hlength)
    obtain ⟨item, rest, hentries⟩ := exists_cons_of_ne_nil
      (ne_nil_of_length_pos (hfull ▸ Nat.pos_of_ne_zero hcapacity))
    have hfirst : s.removeFirst =
        { s with m_entries := rest, m_entryHash := s.m_entryHash.erase item } := by
      rw [removeFirst, hentries]
    have hlisted := h.toListed.erase (show s.m_entries = [] ++ item :: rest from hentries)
    rw [if_pos ⟨hfull, hcurrent⟩, hfirst]
    refine ⟨_, _, by rw [if_pos hfull, hentries, tail_cons],
      ⟨⟨hlisted.nodup, hlisted.mem_entryHash⟩, Nat.mod_lt _ (by decide), ?_⟩, ?_⟩
    all_goals rw [hentries, length_cons] at hlength hfull
    all_goals dsimp only
    · rw [increment_decrement hlt]
      rw [increment] at hlength
      omega
    · omega
  · rw [if_neg fun hboth => hfull hboth.1]
    exact ⟨_, _, by rw [if_neg hfull], h, by omega⟩

theorem Invariant.addItem_spec (hitem : item ∉ s.m_entries)
    (hcapacity : s.m_capacity ≠ 0) (henabled : s.m_enabled = true) :
    (s.addItem item).m_entries = s.kept ++ [item] ∧ (s.addItem item).m_current = s.kept.length ∧
      (s.addItem item).Invariant := by
  obtain ⟨hash, hforward, hend⟩ := h.tossForwardList
  obtain ⟨hash', current, hfirst, hend', hlt⟩ := hend.tossFirst (by rw [hforward]; exact hcapacity)
    (by rw [hforward]; exact (take_sublist _ _).length_le.trans h.length_le)
  have hkept : s.tossForwardList.tossFirst.m_entries = s.kept := by
    rw [hfirst, hforward]
    rfl
  have hcapacity' : s.tossForwardList.tossFirst.m_capacity = s.m_capacity := by
    rw [hfirst, hforward]
  have hnew : item ∉ s.kept := by
    intro hmem
    rw [kept] at hmem
    split at hmem
    · exact hitem (mem_of_mem_take (mem_of_mem_tail hmem))
    · exact hitem (mem_of_mem_take hmem)
  rw [addItem, if_neg (by simp [hcapacity, henabled])]
  dsimp only
  rw [← hend'.length_eq, insertIdx_length_self, hkept]
  refine ⟨rfl, rfl, ⟨⟨?_, fun other => ?_⟩, ?_, ?_, .inr ?_⟩⟩
  · rw [← concat_eq_append]
    exact Nodup.concat hnew (hkept ▸ hend'.nodup)
  · rw [Finset.mem_insert, hend'.mem_entryHash, hkept, mem_append, mem_singleton, or_comm]
  · rw [length_append, hcapacity', ← hkept]
    exact hlt.trans_eq (by rw [hforward])
  · rw [hcapacity']
    exact h.capacity_lt
  · rw [length_append]
    exact Nat.lt_succ_self _

theorem Invariant.setCapacity (hn : n < 2 ^ 31) :
    (s.setCapacity n).Invariant := by
  obtain ⟨hash, heq, hlisted⟩ := h.toListed.removeLastWhile (n := n)
    (Nat.le_add_left s.m_entries.length _)
  have hlisted' : (s.setCapacity n).Listed := ⟨hlisted.nodup, hlisted.mem_entryHash⟩
  have hentries : (s.setCapacity n).m_entries = s.m_entries.take n := by
    rw [BackForwardListImpl.setCapacity, heq]
  have hcurrent : (s.setCapacity n).m_current = if n = 0 then NoCurrentItemIndex
      else if lastIndex (s.m_entries.take n).length < s.m_current then
        lastIndex (s.m_entries.take n).length % 2 ^ 32
      else s.m_current := by
    rw [BackForwardListImpl.setCapacity, heq]
  refine ⟨hlisted', ?_, hn, ?_⟩
  · rw [hentries]
    exact length_take_le _ _
  · rw [hentries, hcurrent]
    rcases h.current with ⟨hnil, hnone⟩ | hlt
    · rw [hnil, take_nil, hnone]
      have hlast : ¬lastIndex ([] : List α).length < NoCurrentItemIndex := by
        rw [lastIndex, NoCurrentItemIndex, length_nil]
        omega
      exact .inl ⟨rfl, by rw [if_neg hlast, ite_self]⟩
    · by_cases hzero : n = 0
      · rw [hzero]
        exact .inl ⟨rfl, rfl⟩
      · right
        have hlast := lastIndex_eq (n := (s.m_entries.take n).length) (by simp; omega)
          (by simp; omega)
        rw [length_take] at *
        split_ifs <;> omega

theorem Invariant.removeItem (item : α) : (s.removeItem item).Invariant := by
  have hcapacity := h.capacity_lt
  have hlength := h.length_le
  rw [BackForwardListImpl.removeItem]
  dsimp only
  by_cases hi : s.m_entries.idxOf item < s.m_entries.length
  · have herased := length_eraseIdx_of_lt hi
    have hentries : s.m_entries = s.m_entries.take (s.m_entries.idxOf item) ++
        item :: s.m_entries.drop (s.m_entries.idxOf item + 1) := by
      conv_lhs => rw [← take_append_drop (s.m_entries.idxOf item) s.m_entries,
        drop_eq_getElem_cons hi, getElem_idxOf hi]
    have hlisted := h.toListed.erase hentries
    rw [← eraseIdx_eq_take_drop_succ] at hlisted
    have hcurrent := h.current.resolve_left fun hnil => by simp [hnil.1] at hi
    rw [if_pos hi]
    generalize s.m_entries.eraseIdx (s.m_entries.idxOf item) = entries at hlisted herased ⊢
    generalize s.m_entryHash.erase item = hash at hlisted ⊢
    have hafter : ∀ current, entries = [] ∧ current = NoCurrentItemIndex ∨
        current < entries.length → Invariant { s with
          m_entries := entries, m_entryHash := hash, m_current := current } :=
      fun current hcurrent => ⟨⟨hlisted.nodup, hlisted.mem_entryHash⟩, by dsimp only; omega,
        hcapacity, hcurrent⟩
    rw [NoCurrentItemIndex] at *
    split_ifs with hbefore hlt hlast hempty
    · exact hafter _ (.inr (by omega))
    · exact hafter _ (.inr (by rw [decrement]; omega))
    · exact hafter _ (.inr (by omega))
    · exact hafter _ (.inl ⟨length_eq_zero_iff.mp (not_not.mp hempty), rfl⟩)
    · exact hafter _ (.inr (by omega))
  · rw [if_neg hi]
    exact h

theorem Invariant.perform (hallowed : s.Allowed operation) (hitem : s.HasItem operation) :
    (s.perform operation).Invariant := by
  have hcapacity := h.capacity_lt
  have hlength := h.length_le
  have hcurrent : s.m_entries ≠ [] → s.m_current < s.m_entries.length := fun hne =>
    h.current.resolve_left fun hnil => hne hnil.1
  cases operation with
  | addItem item =>
    by_cases hdisabled : s.m_capacity = 0 ∨ !s.m_enabled
    · rw [BackForwardListImpl.perform, BackForwardListImpl.addItem, if_pos hdisabled]
      exact h
    · rw [not_or, Bool.not_eq_true', Bool.not_eq_false] at hdisabled
      exact (h.addItem_spec hallowed hdisabled.1 hdisabled.2).2.2
  | goBack =>
    have hlt := hcurrent hitem
    have hpos : 0 < s.m_current := hallowed
    rw [BackForwardListImpl.perform, goBack, if_pos hpos]
    refine ⟨⟨h.nodup, h.mem_entryHash⟩, hlength, hcapacity, .inr ?_⟩
    dsimp only
    rw [decrement]
    omega
  | goForward =>
    have hlt := hcurrent hitem
    have hnext : s.m_current < lastIndex s.m_entries.length := hallowed
    rw [BackForwardListImpl.perform, goForward, if_pos hnext]
    rw [lastIndex_eq (by omega) (by omega)] at hnext
    refine ⟨⟨h.nodup, h.mem_entryHash⟩, hlength, hcapacity, .inr ?_⟩
    dsimp only
    rw [increment]
    omega
  | goToItem item =>
    rw [BackForwardListImpl.perform, goToItem]
    split_ifs with hlt
    · exact ⟨⟨h.nodup, h.mem_entryHash⟩, hlength, hcapacity, .inr hlt⟩
    · exact h
  | removeItem item => exact h.removeItem item
  | setCapacity size => exact h.setCapacity hallowed
  | setEnabled enabled =>
    have hset : Invariant { s with m_enabled := enabled } :=
      ⟨⟨h.nodup, h.mem_entryHash⟩, hlength, hcapacity, h.current⟩
    rw [BackForwardListImpl.perform, setEnabled]
    split_ifs
    · exact (hset.setCapacity (by decide)).setCapacity hcapacity
    · exact hset

omit h in
theorem toInt_eq (h : n < 2 ^ 31) : toInt n = n := by
  rw [toInt, Nat.mod_eq_of_lt (by omega), if_pos h]

theorem Invariant.sound : s.Sound := by
  have hcapacity := h.capacity_lt
  have hlength := h.length_le
  have hadd : ∀ item ∉ s.m_entries, s.m_capacity ≠ 0 → s.m_enabled = true →
      (s.addItem item).m_entries = s.kept ++ [item] ∧
        (s.addItem item).m_current = s.kept.length := fun item hitem hpos henabled =>
    ⟨(h.addItem_spec hitem hpos henabled).1, (h.addItem_spec hitem hpos henabled).2.1⟩
  rcases h.current with ⟨hnil, hcurrent⟩ | hlt
  · have hnone : ∀ index : ℤ, s.itemAtIndex index = some none := by
      intro index
      have hint : toInt s.m_current = -1 := by rw [hcurrent]; decide
      rw [itemAtIndex, hint, forwardListCount]
      split_ifs
      · rfl
      · rfl
      · omega
    exact ⟨by simp [hnil, hcurrent], fun hne => absurd hnil hne, hlength, h.mem_entryHash,
      fun hne => absurd hnil hne, hadd, fun index _ _ => by simp [hnone, hnil]⟩
  · have hne : s.m_entries ≠ [] := ne_nil_of_length_pos (Nat.zero_lt_of_lt hlt)
    have hcurrent : s.m_current ≠ NoCurrentItemIndex := by
      rw [NoCurrentItemIndex]
      omega
    have hforward : s.forwardListCount = s.m_entries.length - (s.m_current + 1) := by
      rw [forwardListCount, if_neg hcurrent, increment_eq (by omega), toInt]
      split_ifs <;> omega
    refine ⟨by simp [hne, hcurrent], fun _ => hlt, hlength, h.mem_entryHash, fun _ => ?_, hadd,
      fun index hlow hhigh => ?_⟩
    · rw [backListCount, toInt_eq (by omega)]
      omega
    · rw [itemAtIndex, hforward, toInt_eq (by omega)]
      by_cases hbefore : index < -(s.m_current : ℤ)
      · rw [if_pos hbefore, if_neg fun hboth => by omega]
      · rw [if_neg hbefore, if_pos (show _ ∧ _ from ⟨hne, by omega⟩)]
        by_cases hbehind : index > (s.m_entries.length : ℤ) - (s.m_current + 1)
        · rw [if_pos hbehind, getElem?_eq_none (by omega)]
        · rw [if_neg hbehind]
          have hmod : (index + s.m_current) % 2 ^ 32 = s.m_current + index := by omega
          rw [hmod, getElem?_eq_getElem (by omega)]
          rfl

omit h

/-- The list is right in every run that does not go back or forward where it is empty. -/
theorem sound_of_guarded_run (h : Reachable (fun s operation => s.Allowed operation ∧
    s.HasItem operation) s) : s.Sound := by
  refine Invariant.sound ?_
  induction h with
  | initial => exact initial_invariant
  | perform _ _ hstep ih => exact ih.perform hstep.1 hstep.2

/-- Two items are added, and after going back to the first the second one is removed. -/
theorem sound_addItem :
    Sound (((addItem (addItem ({} : BackForwardListImpl ℕ) 0) 1).goBack).removeItem 1) :=
  sound_of_guarded_run ((((Reachable.initial.perform (.addItem 0) ⟨not_mem_nil, trivial⟩).perform
    (.addItem 1) ⟨show 1 ∉ [0] by decide, trivial⟩).perform .goBack
      ⟨show 0 < 1 by decide, show [0, 1] ≠ [] by decide⟩).perform (.removeItem 1) ⟨trivial, trivial⟩)

/-- The assertion of `goBack` holds of the empty list, and the index is moved. -/
theorem not_sound_goBack : ¬∀ s : BackForwardListImpl ℕ,
    Reachable (fun s operation => s.Allowed operation) s → s.Sound := by
  intro h
  have hsound := h _ (.perform .initial .goBack (show 0 < NoCurrentItemIndex by decide))
  exact absurd (hsound.current_eq_iff.mpr rfl) (by decide)

end BackForwardListImpl

end WebKit.History
