import Mathlib.Data.List.Perm.Basic
import Mathlib.Order.Lattice

/-!
# Binary heaps

`push_heap` and `pop_heap` of the standard library, which move a hole along a path and write the value
into it at the end.  They write through references, which tell an element its position (`Container`).
The element with the least key is the first one.

* `pushHole`, `sinkHole`: the hole goes up, and down.
* `pushHeap`, `popHeap`: the algorithms.
* `pushHole_rule`, `sinkHole_rule`: the rules for invariants.
* `RisesFrom`, `SinksFrom`: what is in order around a hole.
* `pushHeap_spec`, `popHeap_spec`: the elements are rearranged, they know their positions, and they
  are a heap.
-/

namespace WebKit.BinaryHeap

open List

/-- A container whose references tell what is assigned its position. -/
structure Container (σ κ : Type*) where
  elements : σ → List κ
  index : σ → κ → ℤ
  assign : σ → ℕ → κ → σ
  elements_assign : ∀ s i a, elements (assign s i a) = (elements s).set i a
  index_assign_self : ∀ s i a, i < (elements s).length → index (assign s i a) a = i
  index_assign_ne : ∀ s i a b, b ≠ a → index (assign s i a) b = index s b

def parent (i : ℕ) : ℕ := (i - 1) / 2

theorem parent_lt {i : ℕ} (h : i ≠ 0) : parent i < i := by
  unfold parent
  omega

/-! ## The algorithms -/

section Algorithms

variable {σ κ : Type*} (container : Container σ κ) (less : κ → κ → Bool)

/-- The hole goes up while the parent is less than the value. -/
def pushHole (s : σ) (hole : ℕ) (value : κ) : σ :=
  if h : hole = 0 then container.assign s hole value
  else match (container.elements s)[parent hole]? with
    | none => s
    | some p =>
      if less p value then pushHole (container.assign s hole p) (parent hole) value
      else container.assign s hole value
termination_by hole
decreasing_by exact parent_lt h

/-- The last of `len` elements is pushed onto the heap of those before. -/
def pushHeap (s : σ) (len : ℕ) : σ :=
  match (container.elements s)[len - 1]? with
  | none => s
  | some value => pushHole container less s (len - 1) value

/-- The hole goes down to the child that is not less, until it has no child. -/
def sinkHole (len : ℕ) (s : σ) (hole : ℕ) : σ × ℕ :=
  if hole < (len - 1) / 2 then
    match (container.elements s)[2 * hole + 2]?, (container.elements s)[2 * hole + 1]? with
    | some second, some first =>
      if less second first then sinkHole len (container.assign s hole first) (2 * hole + 1)
      else sinkHole len (container.assign s hole second) (2 * hole + 2)
    | _, _ => (s, hole)
  else if 2 * hole + 2 = len then
    match (container.elements s)[2 * hole + 1]? with
    | some only => (container.assign s hole only, 2 * hole + 1)
    | none => (s, hole)
  else (s, hole)
termination_by len - hole
decreasing_by all_goals omega

/-- The first of `len` elements is exchanged with the last, and the others are made a heap. -/
def popHeap (s : σ) (len : ℕ) : σ :=
  match (container.elements s)[len - 1]?, (container.elements s)[0]? with
  | some value, some first =>
    let (s', hole) := sinkHole container less (len - 1) (container.assign s (len - 1) first) 0
    pushHole container less s' hole value
  | _, _ => s

end Algorithms

/-! ## Rules for invariants -/

section Rules

variable {σ κ : Type*} {container : Container σ κ} {less : κ → κ → Bool}

theorem getElem?_parent {s : σ} {hole : ℕ} (hne : hole ≠ 0)
    (hlt : hole < (container.elements s).length) :
    ∃ p, (container.elements s)[parent hole]? = some p :=
  ⟨_, List.getElem?_eq_getElem ((parent_lt hne).trans hlt)⟩

/-- What each move upwards keeps holds when the value is written. -/
theorem pushHole_rule {value : κ} {motive : σ → ℕ → Prop} {Q : σ → Prop}
    (hlt : ∀ s hole, motive s hole → hole < (container.elements s).length)
    (hmove : ∀ s hole p, motive s hole → hole ≠ 0 →
      (container.elements s)[parent hole]? = some p → less p value = true →
      motive (container.assign s hole p) (parent hole))
    (hend : ∀ s hole, motive s hole →
      (∀ p, hole ≠ 0 → (container.elements s)[parent hole]? = some p → less p value = false) →
      Q (container.assign s hole value))
    {s : σ} {hole : ℕ} (h : motive s hole) : Q (pushHole container less s hole value) := by
  fun_induction pushHole container less s hole value with
  | case1 s => exact hend s 0 h fun p hne => absurd rfl hne
  | case2 s hole hne hnone =>
    obtain ⟨p, hp⟩ := getElem?_parent hne (hlt s hole h)
    cases hnone.symm.trans hp
  | case3 s hole hne p hp hless ih => exact ih (hmove s hole p h hne hp hless)
  | case4 s hole hne p hp hless =>
    refine hend s hole h fun q _ hq => ?_
    rw [hp, Option.some_inj] at hq
    exact hq ▸ Bool.eq_false_of_not_eq_true hless

/-- What each move downwards keeps holds at the end, where the hole has no child.  A move goes to a
child, and the other child is less. -/
theorem sinkHole_rule {len : ℕ} {motive : σ → ℕ → Prop}
    (hlen : ∀ s hole, motive s hole → hole < len ∧ len ≤ (container.elements s).length)
    (hmove : ∀ s hole child c, motive s hole → child ≠ 0 → parent child = hole → child < len →
      (container.elements s)[child]? = some c →
      (∀ other d, other ≠ 0 → parent other = hole → other < len → other ≠ child →
        (container.elements s)[other]? = some d → less d c = true ∨ less c d = false) →
      motive (container.assign s hole c) child) {s : σ} {hole : ℕ} (h : motive s hole) :
    motive (sinkHole container less len s hole).1 (sinkHole container less len s hole).2 ∧
      len ≤ 2 * (sinkHole container less len s hole).2 + 1 := by
  fun_induction sinkHole container less len s hole with
  | case1 s hole hchildren second first hfirst hsecond hless ih =>
    refine ih (hmove s hole _ _ h (by omega) (by unfold parent; omega) (by omega) hfirst ?_)
    intro other d hzero hparent hother hne hd
    obtain rfl : other = 2 * hole + 2 := by
      unfold parent at hparent
      omega
    rw [hsecond, Option.some_inj] at hd
    exact .inl (hd ▸ hless)
  | case2 s hole hchildren second first hfirst hsecond hless ih =>
    refine ih (hmove s hole _ _ h (by omega) (by unfold parent; omega) (by omega) hsecond ?_)
    intro other d hzero hparent hother hne hd
    obtain rfl : other = 2 * hole + 1 := by
      unfold parent at hparent
      omega
    rw [hfirst, Option.some_inj] at hd
    exact .inr (hd ▸ Bool.eq_false_of_not_eq_true hless)
  | case3 s hole hchildren hnone =>
    obtain ⟨hhole, hle⟩ := hlen s hole h
    exact absurd (List.getElem?_eq_getElem (by omega))
      (hnone _ _ (List.getElem?_eq_getElem (by omega)))
  | case4 s hole hchildren hlast only honly =>
    refine ⟨hmove s hole _ _ h (by omega) (by unfold parent; omega) (by omega) honly ?_, by omega⟩
    intro other d hzero hparent hother hne hd
    unfold parent at hparent
    omega
  | case5 s hole hchildren hlast hnone =>
    obtain ⟨hhole, hle⟩ := hlen s hole h
    rw [List.getElem?_eq_none_iff] at hnone
    omega
  | case6 s hole hchildren hlast => exact ⟨h, by omega⟩

end Rules

/-! ## What is in order around a hole -/

section Order

variable {κ β : Type*} [LinearOrder β] (key : κ → β) (len : ℕ) (heap : List κ)

/-- The elements at two positions are in order. -/
def InOrder (i j : ℕ) : Prop := ∀ a, heap[i]? = some a → ∀ b, heap[j]? = some b → key a ≤ key b

/-- Each of the first `len` elements comes behind its parent. -/
def IsHeap : Prop := ∀ i < len, i ≠ 0 → InOrder key heap (parent i) i

/-- The elements off a hole are in order, and the children of the hole come behind its parent. -/
structure SinksFrom (hole : ℕ) : Prop where
  off : ∀ i < len, i ≠ 0 → i ≠ hole → parent i ≠ hole → InOrder key heap (parent i) i
  across : ∀ i < len, i ≠ 0 → parent i = hole → hole ≠ 0 → InOrder key heap (parent hole) i

/-- The children of the hole come behind the value, too. -/
structure RisesFrom (hole : ℕ) (value : κ) : Prop extends SinksFrom key len heap hole where
  above : ∀ i < len, i ≠ 0 → parent i = hole → ∀ b, heap[i]? = some b → key value ≤ key b

variable {key len heap}
variable {hole i : ℕ} {a : κ}

theorem SinksFrom.rises (h : SinksFrom key len heap hole) (hleaf : len ≤ 2 * hole + 1) (value : κ) :
    RisesFrom key len heap hole value where
  off := h.off
  across := h.across
  above := by
    intro i hi hne hparent
    unfold parent at hparent
    omega

theorem inOrder_set_left (hi : i ≠ hole) (h : ∀ b, heap[i]? = some b → key a ≤ key b) :
    InOrder key (heap.set hole a) hole i := by
  intro c hc b hb
  rw [List.getElem?_set_ne hi.symm] at hb
  rw [List.getElem?_set] at hc
  simp only [if_true] at hc
  split at hc
  · obtain rfl := Option.some_inj.mp hc
    exact h b hb
  · cases hc

theorem inOrder_set_right (hi : i ≠ hole) (h : ∀ b, heap[i]? = some b → key b ≤ key a) :
    InOrder key (heap.set hole a) i hole := by
  intro b hb c hc
  rw [List.getElem?_set_ne hi.symm] at hb
  rw [List.getElem?_set] at hc
  simp only [if_true] at hc
  split at hc
  · obtain rfl := Option.some_inj.mp hc
    exact h b hb
  · cases hc

theorem inOrder_set_off (hi : i ≠ hole) (hj : j ≠ hole) :
    InOrder key (heap.set hole a) i j ↔ InOrder key heap i j := by
  rw [InOrder, InOrder, List.getElem?_set_ne hi.symm, List.getElem?_set_ne hj.symm]

/-- The hole goes up past a parent that comes behind the value. -/
theorem RisesFrom.move (h : RisesFrom key len heap hole value) (hhole : hole ≠ 0)
    (hlt : hole < len) (hp : heap[parent hole]? = some p) (hless : key value < key p) :
    RisesFrom key len (heap.set hole p) (parent hole) value := by
  have hup : parent hole < hole := parent_lt hhole
  have hupper : parent hole ≠ 0 → InOrder key heap (parent (parent hole)) (parent hole) := by
    intro hne
    have hupup := parent_lt hne
    exact h.off (parent hole) (hup.trans hlt) hne hup.ne
      (Nat.ne_of_lt (hupup.trans hup))
  have hsibling (i : ℕ) (hi : i < len) (hne : i ≠ 0) (hparent : parent i = parent hole)
      (hhole : i ≠ hole) : InOrder key heap (parent hole) i := by
    have hoff := h.off i hi hne hhole (by rw [hparent]; exact Nat.ne_of_lt hup)
    rwa [hparent] at hoff
  constructor
  · constructor
    · intro i hi hne hnot hparent
      by_cases hihole : i = hole
      · exact absurd (congrArg parent hihole) hparent
      · by_cases hphole : parent i = hole
        · rw [hphole]
          exact inOrder_set_left hihole fun b hb => h.across i hi hne hphole hhole p hp b hb
        · exact (inOrder_set_off hphole hihole).mpr (h.off i hi hne hihole hphole)
    · intro i hi hne hparent hzero
      have hupup : parent (parent hole) ≠ hole := Nat.ne_of_lt ((parent_lt hzero).trans hup)
      by_cases hihole : i = hole
      · rw [hihole]
        exact inOrder_set_right hupup fun b hb => hupper hzero b hb p hp
      · refine (inOrder_set_off hupup hihole).mpr fun b hb d hd => ?_
        exact (hupper hzero b hb p hp).trans (hsibling i hi hne hparent hihole p hp d hd)
  · intro i hi hne hparent b hb
    by_cases hihole : i = hole
    · rw [hihole, List.getElem?_set] at hb
      simp only [if_true] at hb
      split at hb
      · exact Option.some_inj.mp hb ▸ hless.le
      · cases hb
    · rw [List.getElem?_set_ne (Ne.symm hihole)] at hb
      exact hless.le.trans (hsibling i hi hne hparent hihole p hp b hb)

/-- The value is written where the parent does not come behind it. -/
theorem RisesFrom.isHeap (h : RisesFrom key len heap hole value)
    (hstop : ∀ p, hole ≠ 0 → heap[parent hole]? = some p → key p ≤ key value) :
    IsHeap key len (heap.set hole value) := by
  intro i hi hne
  by_cases hihole : i = hole
  · rw [hihole] at hne ⊢
    exact inOrder_set_right (Nat.ne_of_lt (parent_lt hne)) fun p hp => hstop p hne hp
  · by_cases hphole : parent i = hole
    · rw [hphole]
      exact inOrder_set_left hihole fun b hb => h.above i hi hne hphole b hb
    · exact (inOrder_set_off hphole hihole).mpr (h.off i hi hne hihole hphole)

/-- The hole goes down to the child that comes first. -/
theorem SinksFrom.move (h : SinksFrom key len heap hole) (hne : child ≠ 0)
    (hparent : parent child = hole) (hlt : child < len) (hc : heap[child]? = some c)
    (hother : ∀ other ≠ 0, parent other = hole → other < len → other ≠ child →
      ∀ d, heap[other]? = some d → key c ≤ key d) : SinksFrom key len (heap.set hole c) child := by
  have hdown : hole < child := hparent ▸ parent_lt hne
  constructor
  · intro i hi hine hichild hpchild
    by_cases hihole : i = hole
    · rw [hihole] at hine ⊢
      exact inOrder_set_right (Nat.ne_of_lt (parent_lt hine))
        fun b hb => h.across child hlt hne hparent hine b hb c hc
    · by_cases hphole : parent i = hole
      · rw [hphole]
        exact inOrder_set_left hihole fun d hd => hother i hine hphole hi hichild d hd
      · exact (inOrder_set_off hphole hihole).mpr (h.off i hi hine hihole hphole)
  · intro i hi hine hichild _
    have hgrand := parent_lt hine
    rw [hichild] at hgrand
    rw [hparent]
    refine inOrder_set_left (Nat.ne_of_gt (hdown.trans hgrand)) fun d hd => ?_
    have hoff := h.off i hi hine (Nat.ne_of_gt (hdown.trans hgrand))
      (by rw [hichild]; exact Nat.ne_of_gt hdown)
    rw [hichild] at hoff
    exact hoff c hc d hd

/-- The first element of a heap comes before all. -/
theorem IsHeap.le {f b : κ} (h : IsHeap key len heap) (hle : len ≤ heap.length) (hi : i < len)
    (hf : heap[0]? = some f) (hb : heap[i]? = some b) : key f ≤ key b := by
  induction i using Nat.strong_induction_on generalizing b with
  | _ i ih =>
    by_cases hzero : i = 0
    · rw [hzero, hf, Option.some_inj] at hb
      rw [hb]
    · have hup := parent_lt hzero
      have hp : heap[parent i]? = some heap[parent i] :=
        List.getElem?_eq_getElem (hup.trans (hi.trans_le hle))
      exact (ih (parent i) hup (hup.trans hi) hp).trans (h i hi hzero _ hp b hb)

end Order

/-! ## What the algorithms do -/

section Specifications

variable {σ κ β : Type*} [LinearOrder β] {container : Container σ κ} {less : κ → κ → Bool}
  {key : κ → β}

/-- The elements know their positions. -/
def Placed (container : Container σ κ) (s : σ) : Prop :=
  ∀ (i : ℕ) (a : κ), (container.elements s)[i]? = some a → container.index s a = i

/-- The elements are rearranged and know their positions, and nothing else is told one. -/
structure Rearranged (container : Container σ κ) (s s' : σ) : Prop where
  perm : (container.elements s').Perm (container.elements s)
  placed : Placed container s'
  others : ∀ b ∉ container.elements s, container.index s' b = container.index s b

/-- The elements with a value in the hole. -/
structure Filled (container : Container σ κ) (s₀ s : σ) (hole : ℕ) (value : κ) : Prop where
  lt : hole < (container.elements s).length
  perm : ((container.elements s).set hole value).Perm (container.elements s₀)
  placed : ∀ i ≠ hole, ∀ a, (container.elements s)[i]? = some a → container.index s a = i
  others : ∀ b ∉ container.elements s₀, container.index s b = container.index s₀ b

variable {hole i len : ℕ} {s₀ s : σ} {value a : κ}

theorem Filled.length (h : Filled container s₀ s hole value) :
    (container.elements s).length = (container.elements s₀).length := by
  rw [← h.perm.length_eq, length_set]

section

variable (h : Filled container s₀ s hole value)
include h

theorem Filled.value_mem : value ∈ container.elements s₀ :=
  h.perm.mem_iff.mp (mem_set h.lt value)

theorem Filled.mem (hi : i ≠ hole)
    (ha : (container.elements s)[i]? = some a) : a ∈ container.elements s₀ := by
  refine h.perm.mem_iff.mp (mem_of_getElem? (i := i) ?_)
  rw [List.getElem?_set_ne hi.symm, ha]

variable (hnodup : (container.elements s₀).Nodup)

include hnodup

/-- The elements off the hole are different, and none is the value. -/
theorem Filled.ne (hi : i ≠ hole) (ha : (container.elements s)[i]? = some a) : a ≠ value := by
  rintro rfl
  have hset := h.perm.nodup_iff.mpr hnodup
  have hhole : hole < ((container.elements s).set hole a).length := by
    rw [length_set]
    exact h.lt
  refine hi ((List.getElem?_inj hhole hset).mp ?_).symm
  rw [List.getElem?_set_self h.lt, List.getElem?_set_ne hi.symm, ha]

/-- What is assigned to the hole leaves a hole behind. -/
theorem Filled.move (hi : i ≠ hole) (ha : (container.elements s)[i]? = some a) :
    Filled container s₀ (container.assign s hole a) i value where
  lt := by
    rw [container.elements_assign, length_set]
    exact (List.getElem?_eq_some_iff.mp ha).1
  perm := by
    have hhole : hole < ((container.elements s).set hole value).length := by
      rw [length_set]
      exact h.lt
    have hlt : i < ((container.elements s).set hole value).length := by
      rw [length_set]
      exact (List.getElem?_eq_some_iff.mp ha).1
    have hai : ((container.elements s).set hole value)[i] = a := by
      rw [getElem_set_ne hi.symm]
      exact (List.getElem?_eq_some_iff.mp ha).2
    have hswap := set_set_perm hhole hlt
    rw [hai, getElem_set_self, set_set] at hswap
    rw [container.elements_assign]
    exact hswap.trans h.perm
  placed := by
    intro j hj b hb
    rw [container.elements_assign] at hb
    by_cases hjhole : j = hole
    · rw [hjhole, List.getElem?_set_self h.lt, Option.some_inj] at hb
      rw [← hb, hjhole]
      exact container.index_assign_self s hole a h.lt
    · rw [List.getElem?_set_ne (Ne.symm hjhole)] at hb
      have hba : b ≠ a := by
        rintro rfl
        have hset := h.perm.nodup_iff.mpr hnodup
        have hlt : i < ((container.elements s).set hole value).length := by
          rw [length_set]
          exact (List.getElem?_eq_some_iff.mp ha).1
        refine hj ((List.getElem?_inj hlt hset).mp ?_).symm
        rw [List.getElem?_set_ne hi.symm, List.getElem?_set_ne (Ne.symm hjhole), ha, hb]
      rw [container.index_assign_ne s hole a b hba]
      exact h.placed j hjhole b hb
  others := by
    intro b hb
    have hba : b ≠ a := fun heq => hb (heq ▸ h.mem hi ha)
    rw [container.index_assign_ne s hole a b hba, h.others b hb]

/-- The value is written into the hole. -/
theorem Filled.rearranged :
    Rearranged container s₀ (container.assign s hole value) where
  perm := by
    rw [container.elements_assign]
    exact h.perm
  placed := by
    intro j b hb
    rw [container.elements_assign] at hb
    by_cases hjhole : j = hole
    · rw [hjhole, List.getElem?_set_self h.lt, Option.some_inj] at hb
      rw [← hb, hjhole]
      exact container.index_assign_self s hole value h.lt
    · rw [List.getElem?_set_ne (Ne.symm hjhole)] at hb
      rw [container.index_assign_ne s hole value b (h.ne hnodup hjhole hb)]
      exact h.placed j hjhole b hb
  others := by
    intro b hb
    have hba : b ≠ value := fun heq => hb (heq ▸ h.value_mem)
    rw [container.index_assign_ne s hole value b hba, h.others b hb]

end

/-- The value may be written into the hole before. -/
theorem Filled.assign (h : Filled container s₀ s hole value)
    (hnodup : (container.elements s₀).Nodup) :
    Filled container s₀ (container.assign s hole value) hole value where
  lt := by
    rw [container.elements_assign, length_set]
    exact h.lt
  perm := by
    rw [container.elements_assign, set_set]
    exact h.perm
  placed := by
    intro i hi a ha
    rw [container.elements_assign, List.getElem?_set_ne hi.symm] at ha
    rw [container.index_assign_ne s hole value a (h.ne hnodup hi ha)]
    exact h.placed i hi a ha
  others := by
    intro b hb
    have hbvalue : b ≠ value := fun heq => hb (heq ▸ h.value_mem)
    rw [container.index_assign_ne s hole value b hbvalue, h.others b hb]

/-- The comparison is that of the keys, for different elements. -/
def Compares (key : κ → β) (less : κ → κ → Bool) (heap : List κ) : Prop :=
  ∀ a ∈ heap, ∀ b ∈ heap, a ≠ b → (less a b = true ↔ key b < key a)

section

variable (hnodup : (container.elements s₀).Nodup)
  (hcompares : Compares key less (container.elements s₀))
  (hfilled : Filled container s₀ s hole value) (hhole : hole < len)
include hcompares hfilled hhole hnodup

/-- The hole goes up to where the value makes a heap. -/
theorem pushHole_spec (hrises : RisesFrom key len (container.elements s) hole value) :
    Rearranged container s₀ (pushHole container less s hole value) ∧
      IsHeap key len (container.elements (pushHole container less s hole value)) ∧
      ∀ i, len ≤ i → (container.elements (pushHole container less s hole value))[i]? =
        (container.elements s)[i]? := by
  have hcompare {s' : σ} {hole' : ℕ} {p : κ} (hfilled' : Filled container s₀ s' hole' value)
      (hne : hole' ≠ 0) (hp : (container.elements s')[parent hole']? = some p) :
      less p value = true ↔ key value < key p :=
    hcompares p (hfilled'.mem (Nat.ne_of_lt (parent_lt hne)) hp) value hfilled'.value_mem
      (hfilled'.ne hnodup (Nat.ne_of_lt (parent_lt hne)) hp)
  refine pushHole_rule (motive := fun s' hole' => Filled container s₀ s' hole' value ∧ hole' < len ∧
      RisesFrom key len (container.elements s') hole' value ∧
      ∀ i, len ≤ i → (container.elements s')[i]? = (container.elements s)[i]?)
    (Q := fun s' => Rearranged container s₀ s' ∧ IsHeap key len (container.elements s') ∧
      ∀ i, len ≤ i → (container.elements s')[i]? = (container.elements s)[i]?)
    (fun _ _ h => h.1.lt) ?_ ?_ ⟨hfilled, hhole, hrises, fun _ _ => rfl⟩
  · rintro s' hole' p ⟨hfilled', hhole', hrises', hbehind⟩ hne hp hless
    have hup := parent_lt hne
    refine ⟨hfilled'.move hnodup hup.ne hp, hup.trans hhole', ?_, fun i hi => ?_⟩
    · rw [container.elements_assign]
      exact hrises'.move hne hhole' hp ((hcompare hfilled' hne hp).mp hless)
    · rw [container.elements_assign, List.getElem?_set_ne (Nat.ne_of_lt (hhole'.trans_le hi))]
      exact hbehind i hi
  · rintro s' hole' ⟨hfilled', hhole', hrises', hbehind⟩ hstop
    refine ⟨hfilled'.rearranged hnodup, ?_, fun i hi => ?_⟩
    · rw [container.elements_assign]
      refine hrises'.isHeap fun p hne hp => ?_
      rw [← not_lt, ← hcompare hfilled' hne hp, hstop p hne hp]
      exact Bool.false_ne_true
    · rw [container.elements_assign, List.getElem?_set_ne (Nat.ne_of_lt (hhole'.trans_le hi))]
      exact hbehind i hi

/-- The hole goes down to a position without children. -/
theorem sinkHole_spec (hlen : len ≤ (container.elements s₀).length)
    (hsinks : SinksFrom key len (container.elements s) hole) :
    Filled container s₀ (sinkHole container less len s hole).1
        (sinkHole container less len s hole).2 value ∧
      (sinkHole container less len s hole).2 < len ∧
      RisesFrom key len (container.elements (sinkHole container less len s hole).1)
        (sinkHole container less len s hole).2 value ∧
      ∀ i, len ≤ i → (container.elements (sinkHole container less len s hole).1)[i]? =
        (container.elements s)[i]? := by
  have hrule := @sinkHole_rule σ κ container less len
    (fun s' hole' => Filled container s₀ s' hole' value ∧ hole' < len ∧
      SinksFrom key len (container.elements s') hole' ∧
      ∀ i, len ≤ i → (container.elements s')[i]? = (container.elements s)[i]?)
    (fun _ _ h => ⟨h.2.1, hlen.trans_eq h.1.length.symm⟩) ?_ s hole
    ⟨hfilled, hhole, hsinks, fun _ _ => rfl⟩
  · obtain ⟨⟨hfilled', hhole', hsinks', hbehind⟩, hleaf⟩ := hrule
    exact ⟨hfilled', hhole', hsinks'.rises hleaf value, hbehind⟩
  · rintro s' hole' child c ⟨hfilled', hhole', hsinks', hbehind⟩ hne hparent hlt hc hother
    have hdown : hole' < child := hparent ▸ parent_lt hne
    refine ⟨hfilled'.move hnodup hdown.ne' hc, hlt, ?_, fun i hi => ?_⟩
    · rw [container.elements_assign]
      refine hsinks'.move hne hparent hlt hc fun other hzero hpother hotherlt hnot d hd => ?_
      have hgt : hole' < other := hpother ▸ parent_lt hzero
      have hmemc := hfilled'.mem hdown.ne' hc
      have hmemd := hfilled'.mem hgt.ne' hd
      have hcd : d ≠ c := by
        rintro rfl
        have hset := hfilled'.perm.nodup_iff.mpr hnodup
        have hltset : other < ((container.elements s').set hole' value).length := by
          rw [length_set]
          exact (List.getElem?_eq_some_iff.mp hd).1
        refine hnot ((List.getElem?_inj hltset hset).mp ?_)
        rw [List.getElem?_set_ne hgt.ne, List.getElem?_set_ne hdown.ne, hd, hc]
      rcases hother other d hzero hpother hotherlt hnot hd with hless | hless
      · exact ((hcompares d hmemd c hmemc hcd).mp hless).le
      · rw [← not_lt, ← hcompares c hmemc d hmemd hcd.symm, hless]
        exact Bool.false_ne_true
    · rw [container.elements_assign, List.getElem?_set_ne (Nat.ne_of_lt (hhole'.trans_le hi))]
      exact hbehind i hi

end

theorem Filled.self (hplaced : Placed container s)
    (hvalue : (container.elements s)[hole]? = some value) : Filled container s s hole value where
  lt := (List.getElem?_eq_some_iff.mp hvalue).1
  perm := by
    obtain ⟨hlt, heq⟩ := List.getElem?_eq_some_iff.mp hvalue
    rw [← heq, set_getElem_self]
  placed := fun i _ a ha => hplaced i a ha
  others := fun _ _ => rfl

/-- An element that may come before its parent is pushed, with a heap around it. -/
theorem pushHeap_spec {s : σ} {len : ℕ} {value : κ} (hnodup : (container.elements s).Nodup)
    (hplaced : Placed container s) (hcompares : Compares key less (container.elements s))
    (hvalue : (container.elements s)[len - 1]? = some value)
    (hrises : RisesFrom key (container.elements s).length (container.elements s) (len - 1) value) :
    Rearranged container s (pushHeap container less s len) ∧
      IsHeap key (container.elements s).length
        (container.elements (pushHeap container less s len)) := by
  have hspec := pushHole_spec hnodup hcompares (Filled.self hplaced hvalue)
    (List.getElem?_eq_some_iff.mp hvalue).1 hrises
  rw [pushHeap, hvalue]
  exact ⟨hspec.1, hspec.2.1⟩

theorem SinksFrom.set_last {heap : List κ} (h : SinksFrom key len heap hole) (hhole : hole < len) :
    SinksFrom key len (heap.set len a) hole where
  off := by
    intro i hi hne hihole hphole
    exact (inOrder_set_off (Nat.ne_of_lt ((parent_lt hne).trans hi)) hi.ne).mpr
      (h.off i hi hne hihole hphole)
  across := by
    intro i hi hne hparent hzero
    exact (inOrder_set_off (Nat.ne_of_lt ((parent_lt hzero).trans hhole)) hi.ne).mpr
      (h.across i hi hne hparent hzero)

/-- The first element, which may come behind its children, is brought to the end. -/
theorem popHeap_spec {s : σ} {len : ℕ} {first : κ} (hnodup : (container.elements s).Nodup)
    (hplaced : Placed container s) (hcompares : Compares key less (container.elements s))
    (hlen : (container.elements s).length = len + 1)
    (hfirst : (container.elements s)[0]? = some first)
    (hsinks : SinksFrom key len (container.elements s) 0) :
    Rearranged container s (popHeap container less s (len + 1)) ∧
      IsHeap key len (container.elements (popHeap container less s (len + 1))) ∧
      (container.elements (popHeap container less s (len + 1)))[len]? = some first := by
  obtain ⟨value, hvalue⟩ : ∃ value, (container.elements s)[len]? = some value :=
    ⟨_, List.getElem?_eq_getElem (by omega)⟩
  have hself := Filled.self hplaced hvalue
  rw [popHeap, Nat.add_sub_cancel, hvalue, hfirst]
  dsimp only
  cases len with
  | zero =>
    obtain rfl : first = value := Option.some_inj.mp (hfirst.symm.trans hvalue)
    have hassign := hself.assign hnodup
    rw [sinkHole, if_neg (by decide), if_neg (by decide), pushHole, dif_pos rfl]
    refine ⟨hassign.rearranged hnodup, fun i hi => absurd hi (Nat.not_lt_zero i), ?_⟩
    rw [container.elements_assign, List.getElem?_set_self hassign.lt]
  | succ len =>
    have hmoved := hself.move hnodup (Nat.succ_ne_zero len).symm hfirst
    have hlast : (container.elements (container.assign s (len + 1) first))[len + 1]? =
        some first := by
      rw [container.elements_assign, List.getElem?_set_self hself.lt]
    have hsinks' : SinksFrom key (len + 1)
        (container.elements (container.assign s (len + 1) first)) 0 := by
      rw [container.elements_assign]
      exact hsinks.set_last (Nat.succ_pos len)
    obtain ⟨hfilled, hlt, hrises, hbehind⟩ := sinkHole_spec hnodup hcompares hmoved
      (Nat.succ_pos len) (by omega) hsinks'
    obtain ⟨hrearranged, hheap, hrest⟩ := pushHole_spec hnodup hcompares hfilled hlt hrises
    refine ⟨hrearranged, hheap, ?_⟩
    rw [hrest (len + 1) le_rfl, hbehind (len + 1) le_rfl, hlast]

end Specifications

end WebKit.BinaryHeap
