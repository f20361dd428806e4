import Mathlib.Data.List.Nodup

/-!
# Doubly linked lists

Lists through links in the elements, as `LRUList` and its kind are.  The links are maps from elements,
and several lists with their own ends may share them.

* `Links`, `ListEnds`: the links of the elements and the ends of a list.
* `remove`, `pushFront`: the operations.
* `Represents`: the links and the ends represent a list.
* `Represents.remove`, `Represents.pushFront`, `Represents.congr`: what the operations do to the list
  and to others.
-/

namespace WebKit.LinkedList

open List Function LinkedList

variable {κ : Type*} [DecidableEq κ]

structure Links (κ : Type*) where
  next : κ → Option κ
  prev : κ → Option κ

structure ListEnds (κ : Type*) where
  head : Option κ
  tail : Option κ

/-- An assignment to a link of an element, if there is one. -/
def assign (link : κ → Option κ) (element value : Option κ) : κ → Option κ :=
  element.elim link fun x => update link x value

/-- The element is taken out of its list.  It is in none if it has no neighbours and is not the
head. -/
def remove (links : Links κ) (ends : ListEnds κ) (x : κ) : Links κ × ListEnds κ :=
  let next := links.next x
  let prev := links.prev x
  if next = none ∧ prev = none ∧ ends.head ≠ some x then (links, ends)
  else
    ({ next := assign (update links.next x none) prev next
       prev := assign (update links.prev x none) next prev },
     { head := if prev = none ∧ ends.head = some x then next else ends.head
       tail := if next = none ∧ ends.tail = some x then prev else ends.tail })

/-- The element becomes the head. -/
def pushFront (links : Links κ) (ends : ListEnds κ) (x : κ) : Links κ × ListEnds κ :=
  ({ next := update links.next x ends.head
     prev := assign links.prev ends.head (some x) },
   { head := some x
     tail := if ends.head = none then some x else ends.tail })

/-- The links and the ends represent a list. -/
structure Represents (links : Links κ) (ends : ListEnds κ) (xs : List κ) : Prop where
  nodup : xs.Nodup
  head : ends.head = xs.head?
  tail : ends.tail = xs.getLast?
  neighbours : ∀ before x after, xs = before ++ x :: after →
    links.prev x = before.getLast? ∧ links.next x = after.head?

theorem assign_of_ne {y : κ} (h : element ≠ some y) : assign link element value y = link y := by
  cases element with
  | none => rfl
  | some x => exact update_of_ne (fun heq => h (congrArg some heq.symm)) _ _

theorem assign_some (link : κ → Option κ) (value : Option κ) (x : κ) :
    assign link (some x) value x = value :=
  update_self _ _ _

variable {ends : ListEnds κ} {links : Links κ} {xs : List κ}

omit [DecidableEq κ] in
/-- Elements of a list stay apart from what changes. -/
theorem Represents.congr (h : Represents links ends xs)
    (hsame : ∀ x ∈ xs, links'.next x = links.next x ∧ links'.prev x = links.prev x) :
    Represents links' ends xs where
  nodup := h.nodup
  head := h.head
  tail := h.tail
  neighbours := by
    intro before x after hsplit
    have hx := hsame x (by rw [hsplit]; exact mem_append_right _ mem_cons_self)
    rw [hx.1, hx.2]
    exact h.neighbours before x after hsplit

omit [DecidableEq κ] in
theorem represents_nil (links : Links κ) : Represents links ⟨none, none⟩ [] where
  nodup := nodup_nil
  head := rfl
  tail := rfl
  neighbours := fun _ _ _ hsplit => absurd hsplit.symm (append_ne_nil_of_right_ne_nil _
    (cons_ne_nil _ _))

/-- A new head. -/
theorem Represents.pushFront (h : Represents links ends xs) (hx : x ∉ xs)
    (hprev : links.prev x = none) :
    Represents (pushFront links ends x).1 (pushFront links ends x).2 (x :: xs) := by
  have hhead : ends.head ≠ some x := by
    rw [h.head]
    exact fun heq => hx (mem_of_head? heq)
  constructor
  · exact nodup_cons.mpr ⟨hx, h.nodup⟩
  · rfl
  · rw [LinkedList.pushFront, h.head, h.tail]
    cases xs with
    | nil => rfl
    | cons y ys =>
      rfl
  · intro before y after hsplit
    cases before with
    | nil =>
      obtain ⟨rfl, rfl⟩ := List.cons.inj hsplit
      refine ⟨?_, ?_⟩
      · rw [LinkedList.pushFront]
        dsimp only
        rw [assign_of_ne hhead, hprev]
        rfl
      · rw [LinkedList.pushFront]
        dsimp only
        rw [update_self, h.head]
    | cons z before =>
      obtain ⟨rfl, hxs⟩ := List.cons.inj hsplit
      have hxs : xs = before ++ y :: after := hxs
      have hneighbours := h.neighbours before y after hxs
      have hne : y ≠ x := by
        rintro rfl
        exact hx (hxs ▸ mem_append_right _ mem_cons_self)
      refine ⟨?_, ?_⟩
      · rw [LinkedList.pushFront, h.head, hxs]
        dsimp only
        cases before with
        | nil => exact assign_some _ _ _
        | cons w before =>
          have hwy : w ≠ y := by
            rintro rfl
            have hnodup := h.nodup
            rw [hxs] at hnodup
            exact (nodup_cons.mp hnodup).1 (mem_append_right _ mem_cons_self)
          rw [cons_append, List.head?_cons,
            assign_of_ne fun heq => hwy (Option.some_inj.mp heq), hneighbours.1,
            List.getLast?_cons_cons]
      · rw [LinkedList.pushFront]
        dsimp only
        rw [update_of_ne hne, hneighbours.2]

/-- The other elements keep their links. -/
theorem pushFront_of_ne (h : Represents links ends xs) (hy : y ∉ x :: xs) :
    (pushFront links ends x).1.next y = links.next y ∧
      (pushFront links ends x).1.prev y = links.prev y := by
  rw [mem_cons, not_or] at hy
  refine ⟨update_of_ne hy.1 _ _, assign_of_ne ?_⟩
  rw [h.head]
  exact fun heq => hy.2 (mem_of_head? heq)

section Remove

variable {links : Links κ} {ends : ListEnds κ} {before after : List κ} {x : κ}

section

variable (h : Represents links ends (before ++ x :: after))
include h

/-- The links that are set when an element is taken out from between two parts of a list. -/
theorem Represents.remove_eq : remove links ends x =
      ({ next := assign (update links.next x none) before.getLast? after.head?
         prev := assign (update links.prev x none) after.head? before.getLast? },
       { head := if before.getLast? = none ∧ ends.head = some x then after.head? else ends.head
         tail := if after.head? = none ∧ ends.tail = some x then before.getLast?
          else ends.tail }) := by
  obtain ⟨hprev, hnext⟩ := h.neighbours before x after rfl
  rw [remove, hprev, hnext, if_neg]
  rintro ⟨-, hbefore, hhead⟩
  rw [List.getLast?_eq_none_iff] at hbefore
  exact hhead (by rw [h.head, hbefore]; rfl)

theorem head?_remove :
    (if before.getLast? = none ∧ ends.head = some x then after.head? else ends.head) =
      (before ++ after).head? := by
  rw [h.head]
  cases before with
  | nil => exact if_pos ⟨rfl, rfl⟩
  | cons y before =>
    rfl

theorem getLast?_remove :
    (if after.head? = none ∧ ends.tail = some x then before.getLast? else ends.tail) =
      (before ++ after).getLast? := by
  rw [h.tail]
  cases after with
  | nil =>
    rw [if_pos ⟨rfl, by rw [List.getLast?_append]; rfl⟩, append_nil]
  | cons y after =>
    rw [if_neg fun hnone => Option.some_ne_none y hnone.1, List.getLast?_append,
      List.getLast?_append, List.getLast?_cons_cons]

end

variable {y : κ}

variable (h : Represents links ends (before ++ x :: after))

include h

theorem ne_removed (hy : y ∈ before ++ after) :
    y ≠ x := by
  rintro rfl
  have hnodup := h.nodup
  rw [nodup_middle, nodup_cons] at hnodup
  exact hnodup.1 hy

omit h in
/-- The neighbours of an element after the one that is taken out. -/
theorem neighbours_remove_after {y : κ}
    (h : Represents links ends (before ++ x :: (middle ++ y :: right))) :
    assign (update links.prev x none) (middle ++ y :: right).head? before.getLast? y =
        (before ++ middle).getLast? ∧
      assign (update links.next x none) before.getLast? (middle ++ y :: right).head? y =
        right.head? := by
  have hneighbours := h.neighbours (before ++ x :: middle) y right (by
    rw [append_assoc, cons_append])
  have hyx : y ≠ x := ne_removed h
    (mem_append_right _ (mem_append_right _ mem_cons_self))
  have hnodup := h.nodup
  have hnext : before.getLast? ≠ some y := by
    intro hlast
    exact (nodup_append.mp hnodup).2.2 y (mem_of_getLast? hlast) y
      (mem_cons_of_mem _ (mem_append_right _ mem_cons_self)) rfl
  rw [assign_of_ne hnext, update_of_ne hyx, hneighbours.2]
  refine ⟨?_, rfl⟩
  cases middle with
  | nil => rw [nil_append, List.head?_cons, assign_some, append_nil]
  | cons z middle =>
    have hzy : z ≠ y := by
      rintro rfl
      have hafter := (nodup_cons.mp (nodup_append.mp hnodup).2.1).2
      rw [cons_append, nodup_cons] at hafter
      exact hafter.1 (mem_append_right _ mem_cons_self)
    rw [cons_append, List.head?_cons, assign_of_ne fun heq => hzy (Option.some_inj.mp heq),
      update_of_ne hyx, hneighbours.1, List.getLast?_append, List.getLast?_append,
      List.getLast?_cons_cons]

omit h in
/-- The neighbours of an element before the one that is taken out. -/
theorem neighbours_remove_before (h : Represents links ends ((left ++ y :: middle) ++ x :: after)) :
    assign (update links.prev x none) after.head? (left ++ y :: middle).getLast? y =
        left.getLast? ∧
      assign (update links.next x none) (left ++ y :: middle).getLast? after.head? y =
        (middle ++ after).head? := by
  have hneighbours := h.neighbours left y (middle ++ x :: after) (by
    rw [append_assoc, cons_append])
  have hyx : y ≠ x := ne_removed h
    (mem_append_left _ (mem_append_right _ mem_cons_self))
  have hnodup := h.nodup
  have hprev : after.head? ≠ some y := by
    intro hhead
    exact (nodup_append.mp hnodup).2.2 y (mem_append_right _ mem_cons_self) y
      (mem_cons_of_mem _ (mem_of_head? hhead)) rfl
  rw [assign_of_ne hprev, update_of_ne hyx, hneighbours.1]
  refine ⟨rfl, ?_⟩
  cases middle with
  | nil => rw [List.getLast?_append, List.getLast?_singleton, Option.some_or, assign_some,
      nil_append]
  | cons z middle =>
    have hlast : (left ++ y :: z :: middle).getLast? ≠ some y := by
      intro hlast
      rw [List.getLast?_append, List.getLast?_cons_cons] at hlast
      have hbefore := (nodup_append.mp (nodup_append.mp hnodup).1).2.1
      rw [nodup_cons] at hbefore
      cases hmiddle : (z :: middle).getLast? with
      | none => exact cons_ne_nil z middle (List.getLast?_eq_none_iff.mp hmiddle)
      | some w =>
        rw [hmiddle, Option.some_or, Option.some_inj] at hlast
        exact hbefore.1 (hlast ▸ mem_of_getLast? hmiddle)
    rw [assign_of_ne hlast, update_of_ne hyx, hneighbours.2]
    rfl

/-- An element is taken out from between two parts of a list. -/
theorem Represents.remove :
    Represents (remove links ends x).1 (remove links ends x).2
      (before ++ after) := by
  rw [h.remove_eq]
  constructor
  · exact (nodup_cons.mp (nodup_middle.mp h.nodup)).2
  · exact head?_remove h
  · exact getLast?_remove h
  · intro left y right hsplit
    rcases append_eq_append_iff.mp hsplit with ⟨middle, rfl, rfl⟩ | ⟨middle, rfl, hright⟩
    · exact neighbours_remove_after h
    · cases middle with
      | nil =>
        obtain rfl : y :: right = after := hright
        rw [append_nil] at h ⊢
        have hneighbours := @neighbours_remove_after _ _ links ends left x [] right y h
        rwa [append_nil] at hneighbours
      | cons z middle =>
        obtain ⟨rfl, rfl⟩ := List.cons.inj hright
        exact neighbours_remove_before h

/-- The element that is taken out has no neighbours. -/
theorem remove_self :
    (remove links ends x).1.next x = none ∧
      (remove links ends x).1.prev x = none := by
  have hbefore : before.getLast? ≠ some x := by
    intro hlast
    exact ne_removed h (mem_append_left _ (mem_of_getLast? hlast)) rfl
  have hafter : after.head? ≠ some x := by
    intro hhead
    exact ne_removed h (mem_append_right _ (mem_of_head? hhead)) rfl
  rw [h.remove_eq]
  dsimp only
  rw [assign_of_ne hbefore, assign_of_ne hafter, update_self, update_self]
  exact ⟨rfl, rfl⟩

/-- The elements of other lists keep their links. -/
theorem remove_of_notMem (hy : y ∉ before ++ x :: after) :
    (remove links ends x).1.next y = links.next y ∧
      (remove links ends x).1.prev y = links.prev y := by
  rw [mem_append, mem_cons, not_or, not_or] at hy
  rw [h.remove_eq]
  dsimp only
  rw [assign_of_ne fun hlast => hy.1 (mem_of_getLast? hlast),
    assign_of_ne fun hhead => hy.2.2 (mem_of_head? hhead), update_of_ne hy.2.1,
    update_of_ne hy.2.1]
  exact ⟨rfl, rfl⟩

end Remove

end WebKit.LinkedList
