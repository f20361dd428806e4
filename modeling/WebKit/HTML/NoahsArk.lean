import Mathlib.Data.List.Perm.Subperm
import WebKit.HTML.HTMLFormattingElementList

/-!
# The Noah's Ark condition

There are at most three elements that are alike between two markers of the list, after every sequence
of operations (`noahsArk_of_reachable`).

Every operation but those on markers changes one stretch between two markers: `stretches` cuts the
list into these stretches, and `NoahsArk.replace` is the step.  `append` takes the earliest elements
that are like the new one, up to two, out of the last stretch (`append_eq`).
-/

namespace WebKit.HTML

open List

namespace HTMLFormattingElementList

/-! ## Removing the earliest elements -/

section Earliest

variable {α : Type*} (p : α → Bool)

/-- The list without the earliest elements that satisfy a predicate, as many as given. -/
def removeEarliest : ℕ → List α → List α
  | 0, l => l
  | _ + 1, [] => []
  | n + 1, x :: l => if p x then removeEarliest n l else x :: removeEarliest (n + 1) l

@[simp] theorem removeEarliest_zero (l : List α) : removeEarliest p 0 l = l := by
  cases l <;> rfl

@[simp] theorem removeEarliest_nil (n : ℕ) : removeEarliest p n ([] : List α) = [] := by
  cases n <;> rfl

theorem removeEarliest_sublist (n : ℕ) (l : List α) : (removeEarliest p n l).Sublist l := by
  induction l generalizing n with
  | nil => simp
  | cons x l ih =>
    cases n with
    | zero => simp
    | succ n =>
      rw [removeEarliest]
      split
      · exact (ih n).cons x
      · exact (ih (n + 1)).cons_cons x

theorem countP_removeEarliest (n : ℕ) (l : List α) :
    (removeEarliest p n l).countP p = l.countP p - n := by
  induction l generalizing n with
  | nil => simp
  | cons x l ih =>
    cases n with
    | zero => simp
    | succ n =>
      rw [removeEarliest]
      by_cases hx : p x = true
      · rw [if_pos hx, ih, countP_cons_of_pos hx]
        omega
      · rw [if_neg hx, countP_cons_of_neg hx, countP_cons_of_neg hx, ih]

theorem filter_not_mem_take [DecidableEq α] (hl : l.Nodup) (n : ℕ) :
    (l.filter fun x => decide (x ∉ (l.filter p).take n)) = removeEarliest p n l := by
  induction l generalizing n with
  | nil => simp
  | cons x l ih =>
    obtain ⟨hx, hl⟩ := nodup_cons.mp hl
    cases n with
    | zero => simp
    | succ n =>
      rw [removeEarliest]
      by_cases hp : p x = true
      · rw [if_pos hp, filter_cons_of_pos hp, filter_cons_of_neg (by simp), ← ih hl n]
        refine filter_congr fun y hy => ?_
        have hne : y ≠ x := fun heq => hx (heq ▸ hy)
        simp [hne]
      · have hnot : x ∉ (l.filter p).take (n + 1) := fun hmem =>
          hx (mem_of_mem_filter (mem_of_mem_take hmem))
        rw [if_neg hp, filter_cons_of_neg hp, filter_cons_of_pos (by simpa using hnot),
          ih hl (n + 1)]

end Earliest

/-! ## Stretches -/

section Stretches

variable {Element : Type}

/-- The elements between the markers. -/
def stretches : List (Entry Element) → List (List Element)
  | [] => [[]]
  | .marker :: entries => [] :: stretches entries
  | .element element :: entries => (stretches entries).modifyHead (element :: ·)

def elements : List (Entry Element) → List Element
  | [] => []
  | .marker :: entries => elements entries
  | .element element :: entries => element :: elements entries

variable (entries entries' : List (Entry Element))

@[simp] theorem elements_append :
    elements (entries ++ entries') = elements entries ++ elements entries' := by
  induction entries with
  | nil => rfl
  | cons entry entries ih => cases entry <;> simp [elements, ih]

@[simp] theorem elements_map (stretch : List Element) :
    elements (stretch.map .element) = stretch := by
  induction stretch with
  | nil => rfl
  | cons e stretch ih => simp [elements, ih]

theorem mem_elements {entries : List (Entry Element)} {e : Element} :
    e ∈ elements entries ↔ .element e ∈ entries := by
  induction entries with
  | nil => simp [elements]
  | cons entry entries ih => cases entry <;> simp [elements, ih]

theorem stretches_ne_nil : stretches entries ≠ [] := by
  induction entries with
  | nil => simp [stretches]
  | cons entry entries ih => cases entry <;> simp [stretches, ih]

theorem modifyHead_append (h : l ≠ [])
    (l' : List (List Element)) : (l ++ l').modifyHead f = l.modifyHead f ++ l' := by
  cases l with
  | nil => exact absurd rfl h
  | cons s l => rfl

theorem stretches_append_marker :
    stretches (entries ++ .marker :: entries') = stretches entries ++ stretches entries' := by
  induction entries with
  | nil => rfl
  | cons entry entries ih =>
    cases entry with
    | marker => simp [stretches, ih]
    | element e =>
      rw [cons_append, stretches, stretches, ih, modifyHead_append (stretches_ne_nil _)]

@[simp] theorem stretches_map (stretch : List Element) :
    stretches (stretch.map .element) = [stretch] := by
  induction stretch with
  | nil => rfl
  | cons e stretch ih => simp [stretches, ih]

/-- A stretch ends with a marker, or the list does. -/
structure Around (before after : List (Entry Element)) : Prop where
  opens : before = [] ∨ ∃ entries, before = entries ++ [.marker]
  closes : after = [] ∨ ∃ entries, after = .marker :: entries

/-- What stands around a stretch does not depend on it. -/
theorem Around.stretches {before : List (Entry Element)} {after : List (Entry Element)}
    (h : Around before after) :
    ∃ front back, ∀ stretch : List Element,
      stretches (before ++ stretch.map .element ++ after) = front ++ stretch :: back := by
  have hopens : ∃ front, ∀ entries, HTMLFormattingElementList.stretches (before ++ entries) =
        front ++ HTMLFormattingElementList.stretches entries := by
    rcases h.opens with rfl | ⟨entries, rfl⟩
    · exact ⟨[], fun _ => rfl⟩
    · refine ⟨HTMLFormattingElementList.stretches entries, fun rest => ?_⟩
      rw [append_assoc, singleton_append, stretches_append_marker]
  have hcloses : ∃ back, ∀ stretch : List Element,
      HTMLFormattingElementList.stretches (stretch.map .element ++ after) = stretch :: back := by
    rcases h.closes with rfl | ⟨entries, rfl⟩
    · exact ⟨[], fun stretch => by rw [append_nil, stretches_map]⟩
    · refine ⟨HTMLFormattingElementList.stretches entries, fun stretch => ?_⟩
      rw [stretches_append_marker, stretches_map]
      rfl
  obtain ⟨front, hfront⟩ := hopens
  obtain ⟨back, hback⟩ := hcloses
  exact ⟨front, back, fun stretch => by rw [append_assoc, hfront, hback]⟩

/-- The last stretch. -/
theorem exists_last_stretch : ∃ (before : List (Entry Element)) (stretch : List Element),
    entries = before ++ stretch.map .element ∧
      (before = [] ∨ ∃ entries, before = entries ++ [.marker]) := by
  induction entries with
  | nil => exact ⟨[], [], rfl, .inl rfl⟩
  | cons entry entries ih =>
    obtain ⟨before, stretch, rfl, hopens⟩ := ih
    rcases hopens with rfl | ⟨front, rfl⟩
    · cases entry with
      | marker => exact ⟨[.marker], stretch, rfl, .inr ⟨[], rfl⟩⟩
      | element e => exact ⟨[], e :: stretch, rfl, .inl rfl⟩
    · exact ⟨entry :: (front ++ [.marker]), stretch, rfl, .inr ⟨entry :: front, rfl⟩⟩

/-- The first stretch. -/
theorem exists_first_stretch : ∃ (stretch : List Element) (after : List (Entry Element)),
    entries = stretch.map .element ++ after ∧
      (after = [] ∨ ∃ entries, after = .marker :: entries) := by
  induction entries with
  | nil => exact ⟨[], [], rfl, .inl rfl⟩
  | cons entry entries ih =>
    cases entry with
    | marker => exact ⟨[], .marker :: entries, rfl, .inr ⟨entries, rfl⟩⟩
    | element e =>
      obtain ⟨stretch, after, rfl, hcloses⟩ := ih
      exact ⟨e :: stretch, after, rfl, hcloses⟩

/-- Elements without a marker between them are part of a stretch. -/
theorem exists_around :
    ∃ (before : List (Entry Element)) (first last : List Element) (after : List (Entry Element)),
    entries = before ++ first.map .element ∧ entries' = last.map .element ++ after ∧
      Around before after := by
  obtain ⟨before, first, hfirst, hopens⟩ := exists_last_stretch entries
  obtain ⟨last, after, hlast, hcloses⟩ := exists_first_stretch entries'
  exact ⟨before, first, last, after, hfirst, hlast, hopens, hcloses⟩

end Stretches

/-! ## Finding and removing elements -/

section Find

variable {Element : Type} [DecidableEq Element] {entries : List (Entry Element)} {e : Element}

theorem reverseFind_eq_none_iff : reverseFind entries e = none ↔ .element e ∉ entries := by
  induction entries with
  | nil => simp [reverseFind]
  | cons entry entries ih =>
    rw [reverseFind]
    cases hfind : reverseFind entries e with
    | some index =>
      rw [hfind] at ih
      simpa using fun _ => by simpa using ih
    | none =>
      rw [hfind] at ih
      by_cases heq : entry = .element e
      · simp [heq]
      · simp [heq, Ne.symm heq, ih.mp rfl]

theorem contains_iff : contains entries e = true ↔ e ∈ elements entries := by
  rw [contains, Option.isSome_iff_ne_none, Ne, reverseFind_eq_none_iff, not_not, mem_elements]

theorem contains_eq_false : contains entries e = false ↔ e ∉ elements entries := by
  rw [← contains_iff, Bool.not_eq_true]

theorem remove_of_not_mem (h : e ∉ elements entries) : remove entries e = entries := by
  rw [remove, reverseFind_eq_none_iff.mpr fun hmem => h (mem_elements.mpr hmem)]

section

variable {after : List (Entry Element)} (h : e ∉ elements after) (before : List (Entry Element))
include h

theorem reverseFind_append :
    reverseFind (before ++ .element e :: after) e = some before.length := by
  induction before with
  | nil =>
    have hnone := reverseFind_eq_none_iff.mpr fun hmem => h (mem_elements.mpr hmem)
    rw [nil_append, reverseFind, hnone]
    simp
  | cons entry before ih =>
    rw [cons_append, reverseFind, ih]
    rfl

/-- The last entry with the element is removed. -/
theorem remove_append : remove (before ++ .element e :: after) e = before ++ after := by
  rw [remove, reverseFind_append h]
  dsimp only
  rw [eraseIdx_append_of_length_le (Nat.le_refl _), Nat.sub_self]
  rfl

end

/-- An element that is in the list once. -/
theorem exists_append_of_mem (hnodup : (elements entries).Nodup) (h : e ∈ elements entries) :
    ∃ before after, entries = before ++ .element e :: after ∧ e ∉ elements before ∧
      e ∉ elements after := by
  obtain ⟨before, after, rfl⟩ := append_of_mem (mem_elements.mp h)
  rw [elements_append, nodup_append'] at hnodup
  obtain ⟨-, hafter, hdisjoint⟩ := hnodup
  exact ⟨before, after, rfl, fun hmem => hdisjoint hmem mem_cons_self, (nodup_cons.mp hafter).1⟩

theorem filter_ne_of_not_mem (h : e ∉ elements entries) :
    (entries.filter fun entry => decide (entry ≠ .element e)) = entries := by
  refine filter_eq_self.mpr fun entry hmem => ?_
  rw [decide_eq_true_eq]
  rintro rfl
  exact h (mem_elements.mpr hmem)

theorem remove_eq_filter (hnodup : (elements entries).Nodup) (e : Element) :
    remove entries e = entries.filter fun entry => decide (entry ≠ .element e) := by
  by_cases hmem : e ∈ elements entries
  · obtain ⟨before, after, rfl, hbefore, hafter⟩ := exists_append_of_mem hnodup hmem
    rw [remove_append hafter, filter_append, filter_ne_of_not_mem hbefore,
      filter_cons_of_neg (by simp), filter_ne_of_not_mem hafter]
  · rw [remove_of_not_mem hmem, filter_ne_of_not_mem hmem]

theorem elements_sublist {entries' : List (Entry Element)} (h : entries'.Sublist entries) :
    (elements entries').Sublist (elements entries) := by
  induction h with
  | slnil => exact List.Sublist.refl _
  | cons entry _ ih =>
    cases entry with
    | marker => exact ih
    | element e => exact ih.cons e
  | cons_cons entry _ ih =>
    cases entry with
    | marker => exact ih
    | element e => exact ih.cons_cons e

/-- Removing elements one after the other. -/
theorem foldl_remove (hnodup : (elements entries).Nodup) (removed : List Element) :
    removed.foldl remove entries =
      entries.filter fun entry => decide (∀ e ∈ removed, entry ≠ .element e) := by
  induction removed generalizing entries with
  | nil => simp
  | cons e removed ih =>
    have heq := remove_eq_filter hnodup e
    have hsub : (remove entries e).Sublist entries := heq ▸ filter_sublist
    rw [foldl_cons, ih ((elements_sublist hsub).nodup hnodup), heq, filter_filter]
    refine filter_congr fun entry _ => ?_
    simp [Bool.and_comm]

end Find

/-! ## At most three alike -/

section Alike

variable {Element QName Name Value : Type} {dom : FormattingElements Element QName Name Value}
  {e e' e'' : Element}

variable (h : Alike dom e e')

include h

theorem Alike.symm : Alike dom e' e :=
  ⟨h.1.symm, fun attr => (h.2 attr).symm⟩

theorem Alike.trans (h' : Alike dom e' e'') : Alike dom e e'' :=
  ⟨h.1.trans h'.1, fun attr => (h.2 attr).trans (h'.2 attr)⟩

theorem Alike.iff_right (x : Element) : Alike dom x e ↔ Alike dom x e' :=
  ⟨fun hx => hx.trans h, fun hx => hx.trans h.symm⟩

theorem Alike.iff_left (x : Element) : Alike dom e x ↔ Alike dom e' x :=
  ⟨fun hx => h.symm.trans hx, fun hx => h.trans hx⟩

variable [DecidableEq QName] [DecidableEq Name] [DecidableEq Value]

/-- How many elements are like the element. -/
def countAlike (dom : FormattingElements Element QName Name Value) (e : Element)
    (stretch : List Element) : ℕ :=
  stretch.countP fun candidate => decide (Alike dom e candidate)

/-- No four elements of the stretch are alike. -/
def Fits (dom : FormattingElements Element QName Name Value) (stretch : List Element) : Prop :=
  ∀ e, countAlike dom e stretch ≤ noahsArkCapacity

/-- No four elements between two markers are alike. -/
def NoahsArk (dom : FormattingElements Element QName Name Value) (entries : List (Entry Element)) :
    Prop :=
  ∀ stretch ∈ stretches entries, Fits dom stretch

omit h in
/-- A change in one stretch. -/
theorem NoahsArk.replace {before : List (Entry Element)} {after : List (Entry Element)}
    (h : NoahsArk dom (before ++ stretch.map .element ++ after)) (haround : Around before after)
    (hfits : Fits dom stretch → Fits dom stretch') :
    NoahsArk dom (before ++ stretch'.map .element ++ after) := by
  obtain ⟨front, back, hstretches⟩ := haround.stretches
  rw [NoahsArk, hstretches] at h ⊢
  intro s hs
  rcases mem_append.mp hs with hs | hs
  · exact h s (mem_append_left _ hs)
  · rcases mem_cons.mp hs with rfl | hs
    · exact hfits (h stretch (by simp))
    · exact h s (mem_append_right _ (mem_cons_of_mem _ hs))

/-- Elements that are alike take the same room. -/
theorem Alike.countAlike_cons (x : Element) (stretch : List Element) :
    countAlike dom x (e :: stretch) = countAlike dom x (e' :: stretch) := by
  rw [countAlike, countAlike, countP_cons, countP_cons]
  simp only [h.iff_right x]

omit h

theorem countAlike_perm {stretch stretch' : List Element} (h : stretch.Perm stretch') :
    countAlike dom e stretch = countAlike dom e stretch' := h.countP_eq _

end Alike

/-! ## Making room for an element -/

section Room

variable {Element QName Name Value : Type} [DecidableEq Element] [DecidableEq QName]
  [DecidableEq Name] [DecidableEq Value] {dom : FormattingElements Element QName Name Value}
  {e : Element}

/-- What the quick check compares. -/
def QuickMatch (dom : FormattingElements Element QName Name Value) (e candidate : Element) : Prop :=
  dom.tagQName e = dom.tagQName candidate ∧
    attributeCountWithoutUpdate dom candidate = attributeCountWithoutUpdate dom e

instance (e candidate : Element) : Decidable (QuickMatch dom e candidate) :=
  inferInstanceAs (Decidable (_ ∧ _))

/-- The candidate has the attributes. -/
def HasAttributes (dom : FormattingElements Element QName Name Value)
    (attributes : List (Name × Value)) (candidate : Element) : Prop :=
  ∀ attr ∈ attributes, fastGetAttribute dom candidate attr.1 = some attr.2

instance (attributes : List (Name × Value)) (candidate : Element) :
    Decidable (HasAttributes dom attributes candidate) :=
  inferInstanceAs (Decidable (∀ attr ∈ attributes, _))

variable {before : List (Entry Element)}

omit [DecidableEq Element] in
theorem quickCandidates_eq (e : Element) (stretch : List Element)
    (hbefore : before = [] ∨ ∃ entries, before = .marker :: entries) :
    quickCandidates dom e (stretch.map .element ++ before) =
      stretch.filter fun candidate => decide (QuickMatch dom e candidate) := by
  induction stretch with
  | nil => rcases hbefore with rfl | ⟨entries, rfl⟩ <;> rfl
  | cons candidate stretch ih =>
    rw [map_cons, cons_append, quickCandidates, ih]
    by_cases htag : dom.tagQName e = dom.tagQName candidate
    · rw [if_neg (not_not.mpr htag)]
      by_cases hcount : attributeCountWithoutUpdate dom candidate =
          attributeCountWithoutUpdate dom e
      · rw [if_neg (not_not.mpr hcount), filter_cons_of_pos (by simp [QuickMatch, *])]
      · rw [if_pos hcount, filter_cons_of_neg (by simp [QuickMatch, *])]
    · rw [if_pos htag, filter_cons_of_neg (by simp [QuickMatch, *])]

omit [DecidableEq Element] [DecidableEq QName] in
theorem fastGetAttribute_eq_some_iff :
    fastGetAttribute dom e attr.1 = some attr.2 ↔ attr ∈ dom.attributes e := by
  have hnodup := dom.nodup e
  rw [fastGetAttribute]
  generalize dom.attributes e = attributes at hnodup
  induction attributes with
  | nil => simp
  | cons first attributes ih =>
    rw [map_cons, nodup_cons] at hnodup
    by_cases hname : first.1 = attr.1
    · rw [List.find?_cons_of_pos (by simpa using hname), mem_cons]
      have hnot : attr ∉ attributes := fun hmem =>
        hnodup.1 (mem_map.mpr ⟨attr, hmem, hname.symm⟩)
      constructor
      · intro h
        exact .inl (Prod.ext hname.symm (Option.some.inj h).symm)
      · rintro (rfl | hmem)
        · rfl
        · exact absurd hmem hnot
    · rw [List.find?_cons_of_neg (by simpa using hname), mem_cons]
      exact (ih hnodup.2).trans ⟨.inr, fun h => h.resolve_left fun heq => hname (heq ▸ rfl)⟩

omit [DecidableEq Element] [DecidableEq QName] in
/-- The quick check and the attributes decide whether the elements are alike. -/
theorem alike_iff (candidate : Element) : Alike dom e candidate ↔
    QuickMatch dom e candidate ∧ HasAttributes dom (dom.attributes e) candidate := by
  have hset : ∀ x, (dom.attributes x).Nodup := fun x => (dom.nodup x).of_map Prod.fst
  constructor
  · rintro ⟨htag, hattributes⟩
    refine ⟨⟨htag, ?_⟩, fun attr hmem =>
      fastGetAttribute_eq_some_iff.mpr ((hattributes attr).mp hmem)⟩
    exact ((perm_ext_iff_of_nodup (hset e) (hset candidate)).mpr hattributes).length_eq.symm
  · rintro ⟨⟨htag, hcount⟩, hattributes⟩
    refine ⟨htag, ?_⟩
    have hsubset : dom.attributes e ⊆ dom.attributes candidate := fun attr hmem =>
      fastGetAttribute_eq_some_iff.mp (hattributes attr hmem)
    have hperm := (subperm_of_subset (hset e) hsubset).perm_of_length_le (Nat.le_of_eq hcount)
    exact fun attr => hperm.mem_iff

omit [DecidableEq Element] [DecidableEq QName] in
/-- The loop over the attributes ends early when fewer candidates than three have them all. -/
theorem filterCandidates_eq (attributes : List (Name × Value))
    (hcount : noahsArkCapacity ≤ candidates.length) :
    filterCandidates dom attributes candidates =
      if (candidates.filter fun c => decide (HasAttributes dom attributes c)).length <
        noahsArkCapacity then none
      else some (candidates.filter fun c => decide (HasAttributes dom attributes c)) := by
  induction attributes generalizing candidates with
  | nil =>
    have hall : (candidates.filter fun c => decide (HasAttributes dom [] c)) = candidates :=
      filter_eq_self.mpr fun c _ => by simp [HasAttributes]
    rw [filterCandidates, hall, if_neg (Nat.not_lt.mpr hcount)]
  | cons attr attributes ih =>
    have hsplit : (candidates.filter fun c => decide (HasAttributes dom (attr :: attributes) c)) =
        (candidates.filter fun c => decide (fastGetAttribute dom c attr.1 = some attr.2)).filter
          fun c => decide (HasAttributes dom attributes c) := by
      rw [filter_filter]
      refine filter_congr fun c _ => ?_
      rw [Bool.and_comm, ← Bool.decide_and, decide_eq_decide]
      exact forall_mem_cons
    rw [filterCandidates, hsplit]
    by_cases hfew : (candidates.filter fun c =>
        decide (fastGetAttribute dom c attr.1 = some attr.2)).length < noahsArkCapacity
    · rw [if_pos hfew, if_pos]
      exact Nat.lt_of_le_of_lt (length_filter_le _ _) hfew
    · rw [if_neg hfew, ih (Nat.not_lt.mp hfew)]

/-- The elements removed are those like the new one in the last stretch, but the last two. -/
theorem ensureNoahsArkCondition_eq (stretch : List Element)
    (hopens : before = [] ∨ ∃ entries, before = entries ++ [.marker]) :
    ensureNoahsArkCondition dom (before ++ stretch.map .element) e =
      ((stretch.reverse.filter fun c => decide (Alike dom e c)).drop
        (noahsArkCapacity - 1)).foldl remove (before ++ stretch.map .element) := by
  have hquick : quickCandidates dom e (before ++ stretch.map Entry.element).reverse =
      stretch.reverse.filter fun c => decide (QuickMatch dom e c) := by
    rw [reverse_append, ← map_reverse]
    refine quickCandidates_eq e _ ?_
    rcases hopens with rfl | ⟨entries, rfl⟩
    · exact .inl rfl
    · exact .inr ⟨entries.reverse, by simp⟩
  have halike : (stretch.reverse.filter fun c => decide (Alike dom e c)) =
      (stretch.reverse.filter fun c => decide (QuickMatch dom e c)).filter
        fun c => decide (HasAttributes dom (dom.attributes e) c) := by
    rw [filter_filter]
    refine filter_congr fun c _ => ?_
    rw [Bool.and_comm, ← Bool.decide_and, decide_eq_decide]
    exact alike_iff c
  have htry : tryToEnsureNoahsArkConditionQuickly dom (before ++ stretch.map .element) e =
      if (stretch.reverse.filter fun c => decide (QuickMatch dom e c)).length < noahsArkCapacity
      then [] else stretch.reverse.filter fun c => decide (QuickMatch dom e c) := by
    rw [tryToEnsureNoahsArkConditionQuickly, hquick]
    by_cases hshort : (before ++ stretch.map Entry.element).length < noahsArkCapacity
    · have hle := length_filter_le (fun c => decide (QuickMatch dom e c)) stretch.reverse
      rw [length_append, length_map] at hshort
      rw [length_reverse] at hle
      rw [if_pos (by rw [length_append, length_map]; exact hshort), if_pos (by omega)]
    · rw [if_neg hshort]
  rw [ensureNoahsArkCondition, htry, halike]
  generalize (stretch.reverse.filter fun c => decide (QuickMatch dom e c)) = candidates
  -- With fewer than three elements alike there is nothing to remove.
  have hnone : (candidates.filter fun c =>
      decide (HasAttributes dom (dom.attributes e) c)).length < noahsArkCapacity →
      (candidates.filter fun c => decide (HasAttributes dom (dom.attributes e) c)).drop
        (noahsArkCapacity - 1) = [] := fun hfew =>
    drop_eq_nil_of_le (Nat.le_sub_one_of_lt hfew)
  by_cases hcount : candidates.length < noahsArkCapacity
  · rw [if_pos hcount, hnone (Nat.lt_of_le_of_lt (length_filter_le _ _) hcount)]
    rfl
  · have hne : candidates ≠ [] := fun hnil => hcount (by rw [hnil]; exact Nat.succ_pos 2)
    rw [if_neg hcount, filterCandidates_eq _ (Nat.not_lt.mp hcount), if_neg hne]
    by_cases hfew : (candidates.filter fun c =>
        decide (HasAttributes dom (dom.attributes e) c)).length < noahsArkCapacity
    · rw [if_pos hfew, hnone hfew]
      rfl
    · rw [if_neg hfew]

/-- The elements that `append` takes out are the earliest in the last stretch that are like the new
one. -/
theorem append_eq (hnodup : (elements (before ++ stretch.map .element)).Nodup)
    (hopens : before = [] ∨ ∃ entries, before = entries ++ [.marker]) (e : Element) :
    append dom (before ++ stretch.map .element) e =
      before ++ (removeEarliest (fun c => decide (Alike dom e c))
        (countAlike dom e stretch - (noahsArkCapacity - 1)) stretch ++ [e]).map .element := by
  have hremoved : ((stretch.reverse.filter fun c => decide (Alike dom e c)).drop
      (noahsArkCapacity - 1)) = ((stretch.filter fun c => decide (Alike dom e c)).take
        (countAlike dom e stretch - (noahsArkCapacity - 1))).reverse := by
    rw [filter_reverse, drop_reverse, countAlike, countP_eq_length_filter]
  rw [append, ensureNoahsArkCondition_eq stretch hopens, foldl_remove hnodup, hremoved]
  rw [elements_append, elements_map, nodup_append'] at hnodup
  obtain ⟨-, hstretch, hdisjoint⟩ := hnodup
  have hbefore : (before.filter fun entry => decide (∀ c ∈ ((stretch.filter fun c =>
      decide (Alike dom e c)).take (countAlike dom e stretch - (noahsArkCapacity - 1))).reverse,
        entry ≠ .element c)) = before := by
    refine filter_eq_self.mpr fun entry hmem => ?_
    rw [decide_eq_true_eq]
    rintro c hc rfl
    exact hdisjoint (mem_elements.mpr hmem)
      (mem_of_mem_filter (mem_of_mem_take (mem_reverse.mp hc)))
  rw [filter_append, filter_map, ← filter_not_mem_take _ hstretch, append_assoc, map_append]
  congr 3
  refine filter_congr fun c _ => ?_
  rw [Function.comp_apply, decide_eq_decide]
  constructor
  · exact fun h hmem => h c (mem_reverse.mpr hmem) rfl
  · rintro h c' hc' heq
    cases heq
    exact h (mem_reverse.mp hc')

omit [DecidableEq Element] in
/-- There is room for the new element among what is left of the stretch. -/
theorem Fits.append (h : Fits dom stretch) (e : Element) :
    Fits dom (removeEarliest (fun c => decide (Alike dom e c))
      (countAlike dom e stretch - (noahsArkCapacity - 1)) stretch ++ [e]) := by
  intro x
  rw [countAlike, countP_append]
  by_cases halike : Alike dom x e
  · have hsame : (fun c => decide (Alike dom x c)) = fun c => decide (Alike dom e c) := by
      funext c
      exact decide_eq_decide.mpr (halike.iff_left c)
    rw [hsame, countP_removeEarliest]
    have hone := countP_le_length (p := fun c => decide (Alike dom e c)) (l := [e])
    rw [length_singleton] at hone
    rw [countAlike, noahsArkCapacity]
    omega
  · have hzero : [e].countP (fun c => decide (Alike dom x c)) = 0 := by
      simpa using halike
    rw [hzero]
    exact Nat.le_trans (removeEarliest_sublist _ _ _).countP_le (h x)

end Room

/-! ## Every operation -/

section Runs

variable {Element QName Name Value : Type} [DecidableEq Element] [DecidableEq QName]
  [DecidableEq Name] [DecidableEq Value] {dom : FormattingElements Element QName Name Value}
  {entries : List (Entry Element)} {e : Element}

omit [DecidableEq Element] in
/-- A change in a part of a stretch that takes no more room for any element. -/
theorem NoahsArk.replacePart {before : List (Entry Element)} {after : List (Entry Element)}
    (h : NoahsArk dom (before ++ part.map .element ++ after)) (part' : List Element)
    (hcount : ∀ x, countAlike dom x part' ≤ countAlike dom x part) :
    NoahsArk dom (before ++ part'.map .element ++ after) := by
  obtain ⟨front, first, last, back, rfl, rfl, haround⟩ := exists_around before after
  have hjoin : ∀ middle : List Element,
      front ++ first.map .element ++ middle.map .element ++ (last.map .element ++ back) =
        front ++ (first ++ middle ++ last).map .element ++ back := fun middle => by simp
  rw [hjoin] at h ⊢
  refine h.replace haround fun hfits x => Nat.le_trans ?_ (hfits x)
  have hle := hcount x
  rw [countAlike, countAlike] at hle
  rw [countAlike, countAlike, countP_append, countP_append, countP_append, countP_append]
  omega

theorem NoahsArk.remove (h : NoahsArk dom entries) (hnodup : (elements entries).Nodup)
    (e : Element) : NoahsArk dom (remove entries e) := by
  by_cases hmem : e ∈ elements entries
  · obtain ⟨before, after, rfl, -, hafter⟩ := exists_append_of_mem hnodup hmem
    rw [remove_append hafter]
    rw [append_cons] at h
    have hpart : NoahsArk dom (before ++ [e].map .element ++ after) := h
    have hnext := hpart.replacePart [] fun x => Nat.zero_le _
    rwa [map_nil, append_nil] at hnext
  · rwa [remove_of_not_mem hmem]

theorem nodup_remove (hnodup : (elements entries).Nodup) (e : Element) :
    (elements (remove entries e)).Nodup := by
  rw [remove_eq_filter hnodup]
  exact (elements_sublist filter_sublist).nodup hnodup

/-- A list between two operations. -/
structure Ark (dom : FormattingElements Element QName Name Value) (entries : List (Entry Element)) :
    Prop where
  nodup : (elements entries).Nodup
  noahsArk : NoahsArk dom entries

omit [DecidableEq Element] in
theorem ark_nil : Ark dom [] := by
  refine ⟨nodup_nil, fun stretch hmem => ?_⟩
  rw [stretches, mem_singleton] at hmem
  subst hmem
  exact fun x => Nat.zero_le _

variable (h : Ark dom entries)

include h

omit [DecidableEq Element] in
theorem Ark.appendMarker : Ark dom (appendMarker entries) := by
  constructor
  · rw [HTMLFormattingElementList.appendMarker]
    simpa [elements] using h.nodup
  · intro stretch hmem
    rw [HTMLFormattingElementList.appendMarker, stretches_append_marker] at hmem
    rcases mem_append.mp hmem with hmem | hmem
    · exact h.noahsArk stretch hmem
    · rw [stretches, mem_singleton] at hmem
      subst hmem
      exact fun x => Nat.zero_le _

omit h in
omit [DecidableEq Element] in
theorem clearLoop_map (stretch : List Element) (entries : List (Entry Element)) :
    clearLoop (stretch.map .element ++ entries) = clearLoop entries := by
  induction stretch with
  | nil => rfl
  | cons e stretch ih => exact ih

omit [DecidableEq Element] in
theorem Ark.clearToLastMarker : Ark dom (clearToLastMarker entries) := by
  obtain ⟨before, stretch, rfl, hopens⟩ := exists_last_stretch entries
  rw [HTMLFormattingElementList.clearToLastMarker, reverse_append, ← map_reverse, clearLoop_map]
  rcases hopens with rfl | ⟨front, rfl⟩
  · exact ark_nil
  · rw [reverse_append, reverse_singleton, singleton_append, clearLoop, reverse_reverse]
    have hnodup := h.nodup
    have hark := h.noahsArk
    rw [append_assoc, singleton_append] at hnodup hark
    rw [NoahsArk, stretches_append_marker] at hark
    rw [elements_append] at hnodup
    exact ⟨(nodup_append'.mp hnodup).1, fun s hs => hark s (mem_append_left _ hs)⟩

theorem Ark.append (he : e ∉ elements entries) :
    Ark dom (append dom entries e) := by
  obtain ⟨before, stretch, rfl, hopens⟩ := exists_last_stretch entries
  have hark := h.noahsArk
  rw [append_eq h.nodup hopens]
  constructor
  · have hsub : (elements before ++ removeEarliest (fun c => decide (Alike dom e c))
        (countAlike dom e stretch - (noahsArkCapacity - 1)) stretch).Sublist
        (elements before ++ stretch) := (removeEarliest_sublist _ _ _).append_left _
    have hnodup := h.nodup
    rw [elements_append, elements_map] at hnodup he
    rw [elements_append, elements_map, ← append_assoc]
    refine nodup_append'.mpr ⟨hsub.nodup hnodup, nodup_singleton e, fun c hc hce => ?_⟩
    rw [mem_singleton.mp hce] at hc
    exact he (hsub.subset hc)
  · rw [← append_nil (before ++ stretch.map Entry.element)] at hark
    have hnext := hark.replace ⟨hopens, .inl rfl⟩ fun hfits => hfits.append e
    rwa [append_nil] at hnext

omit h in
omit [DecidableEq Element] in
theorem insertIdx_append_length (before after : List (Entry Element)) (entry : Entry Element) :
    (before ++ after).insertIdx before.length entry = before ++ entry :: after := by
  induction before with
  | nil => rfl
  | cons first before ih => exact congrArg (first :: ·) ih

omit [DecidableEq Element] in
/-- Replacing the element of an entry. -/
theorem Ark.replaceElement {new : Element}
    (hmark : entries[mark]? = some (.element old)) (hnew : new ∉ elements entries)
    (halike : Alike dom old new) : Ark dom (entries.set mark (.element new)) := by
  obtain ⟨hlt, hget⟩ := List.getElem?_eq_some_iff.mp hmark
  have hold : entries = entries.take mark ++ .element old :: entries.drop (mark + 1) := by
    rw [← hget, getElem_cons_drop, take_append_drop]
  have hset : entries.set mark (.element new) =
      entries.take mark ++ .element new :: entries.drop (mark + 1) := by
    rw [set_eq_take_append_cons_drop, if_pos hlt]
  have hnodup := h.nodup
  have hark := h.noahsArk
  rw [hold] at hnodup hark hnew
  rw [hset]
  generalize entries.take mark = before at *
  generalize entries.drop (mark + 1) = after at *
  rw [elements_append, elements, nodup_middle] at hnodup
  rw [elements_append] at hnew
  constructor
  · rw [elements_append, elements, nodup_middle]
    refine nodup_cons.mpr ⟨fun hmem => hnew ?_, (nodup_cons.mp hnodup).2⟩
    rcases mem_append.mp hmem with hmem | hmem
    · exact mem_append_left _ hmem
    · exact mem_append_right _ (mem_cons_of_mem _ hmem)
  · rw [append_cons] at hark ⊢
    have hpart : NoahsArk dom (before ++ [old].map .element ++ after) := hark
    exact hpart.replacePart [new] fun x =>
      Nat.le_of_eq (halike.countAlike_cons x []).symm

/-- Inserting an element after an entry of the stretch of an element like it, which is removed. -/
theorem Ark.insertAfter {new : Element}
    (hstretch : InStretch entries mark old) (hnew : new ∉ elements entries)
    (halike : Alike dom old new) :
    Ark dom (remove (entries.insertIdx (mark + 1) (.element new)) old) := by
  obtain ⟨before, stretch, after, rfl, hlow, hhigh, hold⟩ := hstretch
  obtain ⟨k, rfl⟩ := Nat.exists_eq_add_of_le hlow
  have hk : k + 1 ≤ stretch.length := by omega
  have hinsert : (before ++ stretch.map Entry.element ++ after).insertIdx (before.length + k + 1)
      (.element new) = before ++ (stretch.take (k + 1) ++ new :: stretch.drop (k + 1)).map .element ++
        after := by
    have hlength : before.length + k + 1 =
        (before ++ (stretch.take (k + 1)).map Entry.element).length := by
      rw [length_append, length_map, length_take_of_le hk]
      omega
    conv_lhs => rw [← take_append_drop (k + 1) stretch]
    rw [hlength, map_append, append_assoc, append_assoc, ← append_assoc, insertIdx_append_length]
    simp
  have hperm : (stretch.take (k + 1) ++ new :: stretch.drop (k + 1)).Perm (new :: stretch) := by
    have hmiddle : (stretch.take (k + 1) ++ new :: stretch.drop (k + 1)).Perm
        (new :: (stretch.take (k + 1) ++ stretch.drop (k + 1))) := perm_middle
    rwa [take_append_drop] at hmiddle
  rw [hinsert]
  generalize stretch.take (k + 1) ++ new :: stretch.drop (k + 1) = longer at hperm
  have hlonger : (elements (before ++ longer.map .element ++ after)).Nodup := by
    have hnodup := h.nodup
    rw [elements_append, elements_append, elements_map] at hnodup hnew ⊢
    have hall : (elements before ++ longer ++ elements after).Perm
        (new :: (elements before ++ stretch ++ elements after)) := by
      rw [append_assoc, append_assoc]
      refine ((hperm.append_right _).append_left _).trans ?_
      exact perm_middle
    exact hall.nodup_iff.mpr (nodup_cons.mpr ⟨hnew, hnodup⟩)
  refine ⟨nodup_remove hlonger old, ?_⟩
  obtain ⟨first, last, rfl⟩ := append_of_mem (hperm.mem_iff.mpr (mem_cons_of_mem new hold))
  have hjoin : before ++ (first ++ old :: last).map .element ++ after =
      (before ++ first.map .element) ++ .element old :: (last.map .element ++ after) := by simp
  have hrest : old ∉ elements (last.map .element ++ after) := by
    rw [hjoin, elements_append] at hlonger
    exact (nodup_cons.mp (nodup_append'.mp hlonger).2.1).1
  rw [hjoin, remove_append hrest]
  have hpart : before ++ first.map .element ++ (last.map .element ++ after) =
      before ++ (first ++ last).map .element ++ after := by simp
  rw [hpart]
  refine h.noahsArk.replacePart _ fun x => ?_
  -- The new element takes the room of the old one.
  have hcount : countAlike dom x (old :: (first ++ last)) = countAlike dom x (new :: stretch) :=
    countAlike_perm (perm_middle.symm.trans hperm)
  rw [halike.countAlike_cons, countAlike, countAlike, countP_cons, countP_cons] at hcount
  rw [countAlike, countAlike]
  omega

theorem Ark.step (hop : op.Allowed dom entries) :
    Ark dom (step dom entries op) := by
  cases op with
  | append e => exact h.append (contains_eq_false.mp hop.2)
  | appendMarker => exact h.appendMarker
  | remove e => exact ⟨nodup_remove h.nodup e, h.noahsArk.remove h.nodup e⟩
  | clearToLastMarker => exact h.clearToLastMarker
  | swapTo old new bookmark =>
    obtain ⟨⟨-, hnew, halike, hmark⟩, hstretch⟩ := hop
    rw [contains_eq_false] at hnew
    rw [HTMLFormattingElementList.step, HTMLFormattingElementList.swapTo]
    by_cases hmoved : bookmark.hasBeenMoved = true
    · rw [if_pos hmoved]
      exact h.insertAfter (hstretch hmoved) hnew halike
    · rw [if_neg hmoved] at hmark ⊢
      exact h.replaceElement hmark hnew halike

omit h

theorem Reachable.ark (h : Reachable dom entries) : Ark dom entries := by
  induction h with
  | empty => exact ark_nil
  | step op _ hop ih => exact ih.step hop

/-- In a list that the tree builder can make, no four elements between two markers are alike; and
appending an element takes out only the earliest elements after the last marker that are like it, up
to two. -/
theorem noahsArk_of_reachable (h : Reachable dom entries) : NoahsArk dom entries ∧
    ∀ e, ∃ (before : List (Entry Element)) (stretch : List Element),
      entries = before ++ stretch.map .element ∧
      (before = [] ∨ ∃ front, before = front ++ [.marker]) ∧
      append dom entries e = before ++ (removeEarliest (fun c => decide (Alike dom e c))
        (countAlike dom e stretch - (noahsArkCapacity - 1)) stretch ++ [e]).map .element := by
  refine ⟨h.ark.noahsArk, fun e => ?_⟩
  obtain ⟨before, stretch, rfl, hopens⟩ := exists_last_stretch entries
  exact ⟨before, stretch, rfl, hopens, append_eq h.ark.nodup hopens e⟩

end Runs

/-- Elements with numbers for addresses, the same tag name and no attributes. -/
def allAlike : FormattingElements ℕ Unit Unit Unit := ⟨fun _ => (), fun _ => [], fun _ => by simp⟩

/-- The first of four elements is taken out by the last; another one after a marker is replaced. -/
theorem noahsArk_of_reachable_two :
    let entries : List (Entry ℕ) :=
      [.element 1, .element 2, .element 3, .marker, .element 5]
    NoahsArk allAlike entries ∧
      ∀ e, ∃ (before : List (Entry ℕ)) (stretch : List ℕ),
        entries = before ++ stretch.map .element ∧
        (before = [] ∨ ∃ front, before = front ++ [.marker]) ∧
        append allAlike entries e =
          before ++ (removeEarliest (fun c => decide (Alike allAlike e c))
            (countAlike allAlike e stretch - (noahsArkCapacity - 1)) stretch ++ [e]).map .element :=
  have hthree : Reachable allAlike [.element 0, .element 1, .element 2] :=
    ((Reachable.empty.step (.append 0) ⟨trivial, rfl⟩).step (.append 1) ⟨trivial, rfl⟩).step
      (.append 2) ⟨trivial, rfl⟩
  have hark : Reachable allAlike [.element 1, .element 2, .element 3] :=
    hthree.step (.append 3) ⟨trivial, rfl⟩
  have hmarker : Reachable allAlike [.element 1, .element 2, .element 3, .marker] :=
    hark.step .appendMarker ⟨trivial, trivial⟩
  have hsecond : Reachable allAlike [.element 1, .element 2, .element 3, .marker, .element 4] :=
    hmarker.step (.append 4) ⟨trivial, by decide⟩
  have hswap : Reachable allAlike [.element 1, .element 2, .element 3, .marker, .element 5] :=
    hsecond.step (.swapTo 4 5 ⟨false, 4⟩)
      ⟨⟨by decide, by decide, by decide, by decide⟩, fun h => nomatch h⟩
  noahsArk_of_reachable hswap

/-- A bookmark moved across a marker takes a fourth element into a stretch; and of an element that is
twice in the list it is the later entry that makes room. -/
theorem not_noahsArk_across_marker :
    let ops : List (Operation ℕ) := [.append 0, .append 1, .append 2, .appendMarker, .append 3,
      .swapTo 3 4 ⟨true, 2⟩]
    AssertedRun allAlike [] ops ∧
      run allAlike [] ops = [.element 0, .element 1, .element 2, .element 4, .marker] ∧
      ¬NoahsArk allAlike (run allAlike [] ops) ∧
      run allAlike [] [.append 0, .append 1, .append 0, .append 2] =
        [.element 0, .element 1, .element 2] := by
  have hrun : run allAlike [] [.append 0, .append 1, .append 2, .appendMarker, .append 3,
      .swapTo 3 4 ⟨true, 2⟩] = [.element 0, .element 1, .element 2, .element 4, .marker] := by
    decide
  refine ⟨?_, hrun, fun h => ?_, by decide⟩
  · simp only [AssertedRun, Operation.Asserted]
    decide
  · exact absurd (h [0, 1, 2, 4] (by decide) 0) (by decide)

end HTMLFormattingElementList

end WebKit.HTML
