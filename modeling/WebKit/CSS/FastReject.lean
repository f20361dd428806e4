import WebKit.CSS.AncestorFilter
import WebKit.CSS.SelectorMatching

/-!
# Fast rejection

The filter holds the identifiers of all parents and hosts of an element whose parent is on top of the
stack, and an identifier that is collected from a selector stands on one of them where the selector
matches.

* `ParentStack.Consistent`: the stack is the way to a root, and the filter counts its identifiers.
* `collectLoop_sound`: an identifier that is collected stands above the element.
* `not_matches_of_fastReject`: no rule is rejected that matches.
-/

namespace WebKit.CSS

open WTF
open List Forest Relation.TransGen

variable {Element Pseudo : Type*} {t : Forest Element}

/-! ## The stack is the way to a root -/

/-- An element is above another through parents and hosts. -/
def HostAbove (t : Forest Element) : Element → Element → Prop :=
  Relation.TransGen fun e p => t.parentOrHostElement e = some p

/-- The frames of an element, where there is one, and of all above it. -/
def IsParentStack (t : Forest Element) : Option Element → List (ParentStackFrame Element) → Prop
  | parent, [] => parent = none
  | parent, frame :: frames =>
    parent = some frame.element ∧ IsParentStack t (t.parentOrHostElement frame.element) frames

variable {frames : List (ParentStackFrame Element)} {parent : Option Element}
  {hash : UString → UInt32}

theorem IsParentStack.eq_head (h : IsParentStack t parent frames) :
    frames.head?.map ParentStackFrame.element = parent := by
  cases frames with
  | nil => exact Eq.symm h
  | cons frame frames => exact h.1.symm

/-- Each element above one is on the stack of its parent. -/
theorem IsParentStack.exists_frame
    (h : IsParentStack t (t.parentOrHostElement e) frames) (ha : HostAbove t e a) :
    ∃ frame ∈ frames, frame.element = a := by
  induction frames generalizing e with
  | nil =>
    obtain ⟨p, hp, -⟩ := (head'_iff).mp ha
    rw [h] at hp
    cases hp
  | cons frame frames ih =>
    obtain ⟨p, hp, hrest⟩ := (head'_iff).mp ha
    rw [h.1] at hp
    cases hp
    rcases hrest.cases_head with rfl | ⟨q, hq, hrest⟩
    · exact ⟨frame, mem_cons_self, rfl⟩
    · obtain ⟨frame', hmem, heq⟩ := ih h.2 (head' hq hrest)
      exact ⟨frame', mem_cons_of_mem frame hmem, heq⟩

theorem IsParentStack.congr (h : IsParentStack t parent frames) (hsame : ∀ frame ∈ frames,
      t'.parentOrHostElement frame.element = t.parentOrHostElement frame.element) :
    IsParentStack t' parent frames := by
  induction frames generalizing parent with
  | nil => exact h
  | cons frame frames ih =>
    obtain ⟨hframe, hframes⟩ := forall_mem_cons.mp hsame
    exact ⟨h.1, hframe ▸ ih h.2 hframes⟩

namespace ParentStack

variable (hash : UString → UInt32)

/-- The stack is the way to a root, with the identifiers of its elements, and the filter counts
them. -/
structure Consistent (t : Forest Element) (parent : Option Element) (stack : ParentStack Element) :
    Prop where
  way : IsParentStack t parent stack.m_parentStack
  identifiers : ∀ frame ∈ stack.m_parentStack,
    frame.identifierHashes = collectElementIdentifierHashes hash (t.data frame.element)
  counts : ∃ filter, stack.m_ancestorIdentifierFilter = some filter ∧
    filter.Counts (stack.m_parentStack.flatMap ParentStackFrame.identifierHashes)

variable {hash} {parent : Option Element} {stack : ParentStack Element}

theorem Consistent.push (h : stack.Consistent hash t (t.parentOrHostElement e)) :
    (stack.pushParentStackFrame hash t e).Consistent hash t (some e) where
  way := ⟨rfl, h.way⟩
  identifiers := forall_mem_cons.mpr ⟨rfl, h.identifiers⟩
  counts := by
    obtain ⟨filter, hfilter, hcounts⟩ := h.counts
    refine ⟨_, by rw [pushParentStackFrame, hfilter]; rfl, ?_⟩
    exact hcounts.addAll _

theorem consistent_setup (e : Element) :
    (setupParentStack hash t e).Consistent hash t (some e) := by
  induction hn : t.depth e using Nat.strong_induction_on generalizing e with
  | _ n ih =>
    rw [setupParentStack, parentsOrHosts]
    split
    · next hnone =>
      refine Consistent.push ?_
      rw [hnone]
      exact ⟨rfl, by simp, .clear, rfl, BloomFilter.counts_clear⟩
    · next p hsome =>
      refine Consistent.push ?_
      rw [hsome]
      exact ih _ (hn ▸ t.depth_lt hsome) p rfl

theorem Consistent.pop (h : stack.Consistent hash t parent)
    (hstack : stack.m_parentStack = frame :: frames) (hframes : frames ≠ []) :
    stack.popParent.Consistent hash t (t.parentOrHostElement frame.element) := by
  obtain ⟨next, frames, rfl⟩ := exists_cons_of_ne_nil hframes
  obtain ⟨hway, hidentifiers, filter, hfilter, hcounts⟩ := h
  rw [hstack] at hway hidentifiers hcounts
  rw [popParent, popParentStackFrame, hstack]
  refine ⟨hway.2, (forall_mem_cons.mp hidentifiers).2, _, by rw [hfilter]; rfl, ?_⟩
  exact hcounts.removeAll

theorem Consistent.change (h : stack.Consistent hash t parent)
    (hsame : ∀ frame ∈ stack.m_parentStack, SameIdentifiers t t' frame.element) :
    stack.Consistent hash t' parent where
  way := h.way.congr fun frame hframe => (hsame frame hframe).parentOrHostElement
  identifiers frame hframe := by
    rw [h.identifiers frame hframe, collectElementIdentifierHashes, collectElementIdentifierHashes,
      (hsame frame hframe).localName, (hsame frame hframe).idForStyleResolution,
      (hsame frame hframe).classNames]
  counts := h.counts

end ParentStack

/-- The stack is empty, or it is consistent. -/
def ParentStack.Maintained (hash : UString → UInt32) (t : Forest Element)
    (stack : ParentStack Element) : Prop :=
  stack.m_parentStack ≠ [] →
    stack.Consistent hash t (stack.m_parentStack.head?.map ParentStackFrame.element)

theorem ParentStack.Consistent.maintained {stack : ParentStack Element}
    (h : stack.Consistent hash t parent) :
    stack.Maintained hash t := fun _ => h.way.eq_head.symm ▸ h

theorem Step.maintained [DecidableEq Element]
    {state' : Forest Element × ParentStack Element} (hstep : Step hash state state')
    (h : state.2.Maintained hash state.1) : state'.2.Maintained hash state'.1 := by
  cases hstep with
  | setupParentStack t stack e => exact (ParentStack.consistent_setup e).maintained
  | pushParent t stack e hstack =>
    rw [ParentStack.pushParent]
    split
    · exact h
    · next hnot =>
      rw [not_ne_iff] at hnot
      have hconsistent := h hstack
      rw [hnot] at hconsistent
      exact hconsistent.push.maintained
  | popParent t stack hstack =>
    obtain ⟨frame, frames, hframes⟩ := exists_cons_of_ne_nil hstack
    cases frames with
    | nil =>
      intro hpopped
      rw [ParentStack.popParent, ParentStack.popParentStackFrame, hframes] at hpopped
      exact absurd rfl hpopped
    | cons next frames => exact ((h hstack).pop hframes nofun).maintained
  | change t t' stack hsame => exact fun hstack => (h hstack).change hsame

/-- On each walk the stack is empty or it is consistent. -/
theorem Walk.maintained [DecidableEq Element] {stack : ParentStack Element}
    (h : Walk hash t stack) : stack.Maintained hash t := by
  obtain ⟨t₀, hrun⟩ := h
  generalize hstate : (t, stack) = state at hrun
  have hmaintained : state.2.Maintained hash state.1 := by
    clear hstate
    induction hrun with
    | refl => exact fun hstack => absurd rfl hstack
    | tail _ hstep ih => exact hstep.maintained ih
  rw [← hstate] at hmaintained
  exact hmaintained

/-! ## The identifiers of a selector -/

section Identifiers

variable (hash : UString → UInt32)

/-- A hash of an identifier of an element above another. -/
def IsAbove (t : Forest Element) (e : Element) (identifierHash : UInt32) : Prop :=
  ∃ a, HostAbove t e a ∧ identifierHash ∈ collectElementIdentifierHashes hash (t.data a)

variable {hash} {checker : SelectorChecker Element Pseudo} {s next : CSSSelector Pseudo}
  {history : List (CSSSelector Pseudo)} {context : CheckingContext Element}
  {dynamicPseudo : PseudoId}

theorem localName_of_tagMatches {data : ElementData} (h : tagMatches data s = true) :
    s.tag.localName = starAtom ∨ s.tag.localName = data.localName := by
  rw [tagMatches] at h
  split at h
  · next hany => exact .inl (by rw [hany]; rfl)
  · split at h
    · cases h
    · next hnot =>
      by_contra hboth
      exact hnot (not_or.mp hboth)

theorem tagMatches_of_checkOneSelector
    (hcheck : (checker.checkOneSelector t s context dynamicPseudo).1 = true) :
    tagMatches (t.data context.element) s = true := by
  by_contra hnot
  rw [SelectorChecker.checkOneSelector] at hcheck
  simp only [hnot] at hcheck
  cases hcheck

variable {maximum : ℕ} {written : List UInt32} {e x : Element} {skip : Bool}

/-- The identifiers of a selector are those of an element that it accepts. -/
theorem collectDescendant_sound {P : UInt32 → Prop}
    (hcheck : (checker.checkOneSelector t s context dynamicPseudo).1 = true)
    (helement : ∀ h ∈ collectElementIdentifierHashes hash (t.data context.element), P h)
    (hwritten : ∀ h ∈ written, P h) :
    ∀ h ∈ collectDescendantSelectorIdentifierHashes hash s maximum written, P h := by
  have htag := tagMatches_of_checkOneSelector hcheck
  have happend : ∀ {hashes : List UInt32} {h : UInt32}, (∀ h ∈ hashes, P h) →
      h ∈ collectElementIdentifierHashes hash (t.data context.element) →
      ∀ h' ∈ hashes ++ [h], P h' := fun hhashes hmem h' hh' => by
    rcases mem_append.mp hh' with hh' | hh'
    · exact hhashes h' hh'
    · rw [mem_singleton.mp hh']
      exact helement _ hmem
  unfold collectDescendantSelectorIdentifierHashes
  extract_lets written'
  have hwritten' : ∀ h ∈ written', P h := by
    rw [SelectorChecker.checkOneSelector] at hcheck
    simp only [htag] at hcheck
    obtain ⟨tag, m_match, relation⟩ := s
    cases m_match with
    | matchId value =>
      have hid : (t.data context.element).idForStyleResolution = some value := beq_iff_eq.mp hcheck
      dsimp only [written']
      split
      · exact hwritten
      · refine happend hwritten ?_
        simp [collectElementIdentifierHashes, hid]
    | matchClass value =>
      have hclass : value ∈ (t.data context.element).classNames := contains_iff_mem.mp hcheck
      dsimp only [written']
      split
      · exact hwritten
      · refine happend hwritten ?_
        exact mem_append_right _ (mem_map_of_mem hclass)
    | _ => exact hwritten
  split
  · exact hwritten'
  · split
    · next hstar =>
      rcases localName_of_tagMatches htag with hname | hname
      · exact absurd hname hstar
      · refine happend hwritten' ?_
        rw [hname]
        exact mem_cons_self
    · exact hwritten'

/-! ## Where a selector matches -/

/-- The element of a combinator is above, beside or at the element before it. -/
inductive Follows (t : Forest Element) : Relation → Element → Element → Prop
  | related {relation : Relation} {e x : Element} (h : Related t relation e x) :
      Follows t relation e x
  | shadowDescendant {e host : Element} (h : t.shadowHost e = some host) :
      Follows t .shadowDescendant e host

variable [DecidableEq Element]
  {checkOne : CSSSelector Pseudo → CheckingContext Element → PseudoId → Bool × PseudoId}
  {checkerState : CheckerState}

omit [DecidableEq Element] in
variable {check : Element → PseudoId → Checked} {relation : Relation}

theorem checkSiblings_matches {siblings : List Element}
    (h : (checkSiblings check siblings dynamicPseudo).1 = .selectorMatches) :
    ∃ x ∈ siblings, ∃ dynamicPseudo, (check x dynamicPseudo).1 = .selectorMatches := by
  induction siblings generalizing dynamicPseudo with
  | nil => cases h
  | cons x siblings ih =>
    rw [checkSiblings] at h
    split at h
    · obtain ⟨y, hy, hmatch⟩ := ih h
      exact ⟨y, mem_cons_of_mem x hy, hmatch⟩
    · exact ⟨x, mem_cons_self, dynamicPseudo, h⟩

theorem checkAncestors_matches {ancestors : List Element}
    (h : (checkAncestors check scope ancestors dynamicPseudo).1 = .selectorMatches) :
    ∃ x ∈ ancestors, ∃ dynamicPseudo, (check x dynamicPseudo).1 = .selectorMatches := by
  induction ancestors generalizing dynamicPseudo with
  | nil => cases h
  | cons x ancestors ih =>
    rw [checkAncestors] at h
    split at h
    · next hcheck => exact ⟨x, mem_cons_self, dynamicPseudo, by rw [hcheck]⟩
    · cases h
    · split at h
      · cases h
      · obtain ⟨y, hy, hmatch⟩ := ih h
        exact ⟨y, mem_cons_of_mem x hy, hmatch⟩

/-- Where a combinator's check succeeds, the next selector was found at an element that follows. -/
theorem checkNext_matches
    (h : (t.checkNext checkerState relation context next check dynamicPseudo).1 =
      .selectorMatches) :
    ∃ context' dynamicPseudo', Follows t relation context.element context'.element ∧
      (check context' dynamicPseudo').1 = .selectorMatches := by
  cases relation with
  | descendant =>
    obtain ⟨x, hx, dynamicPseudo', hmatch⟩ := checkAncestors_matches h
    exact ⟨_, dynamicPseudo', .related (.descendant hx), hmatch⟩
  | child =>
    dsimp only [checkNext] at h
    split at h
    · cases h
    · next p hp => exact ⟨_, dynamicPseudo, .related (.child hp), h⟩
  | directAdjacent =>
    dsimp only [checkNext] at h
    split at h
    · cases h
    · next x hx => exact ⟨_, dynamicPseudo, .related (.directAdjacent hx), h⟩
  | indirectAdjacent =>
    obtain ⟨x, hx, dynamicPseudo', hmatch⟩ := checkSiblings_matches h
    exact ⟨_, dynamicPseudo', .related (.indirectAdjacent hx), hmatch⟩
  | subSelector =>
    dsimp only [checkNext] at h
    split at h
    · cases h
    · have helement : (t.nextContext .subSelector context).element = context.element := rfl
      exact ⟨t.nextContext .subSelector context, dynamicPseudo,
        helement ▸ .related (.subSelector _), h⟩
  | shadowDescendant =>
    dsimp only [checkNext] at h
    split at h
    · cases h
    · split at h
      · cases h
      · next host hhost => exact ⟨_, dynamicPseudo, .shadowDescendant hhost, h⟩

theorem checkOne_of_matches
    (h : (t.checkSelector checkerState checkOne s history context dynamicPseudo).1 =
      .selectorMatches) :
    (checkOne s context dynamicPseudo).1 = true := by
  rw [checkSelector] at h
  split at h
  · cases h
  · split at h
    · cases h
    · next hcheck => rw [hcheck]

theorem checkSelector_cons_matches
    (h : (t.checkSelector checkerState checkOne s (next :: history) context dynamicPseudo).1 =
      .selectorMatches) :
    ∃ context' dynamicPseudo', Follows t s.relation context.element context'.element ∧
      (t.checkSelector checkerState checkOne next history context' dynamicPseudo').1 =
        .selectorMatches := by
  rw [checkSelector] at h
  split at h
  · cases h
  · split at h
    · cases h
    · dsimp only at h
      split at h
      · cases h
      · exact checkNext_matches h

/-! ## The entries stand above the element -/

omit [DecidableEq Element] in
theorem hostAbove_of_mem_ancestors (h : x ∈ t.ancestors e) : HostAbove t e x := by
  induction e using t.induction_parent with
  | root e hnone =>
    rw [ancestors_of_none hnone] at h
    cases h
  | below e p hsome ih =>
    have hparent := t.parentOrHostElement_of_parentElement hsome
    rw [ancestors_of_some hsome] at h
    rcases mem_cons.mp h with rfl | h
    · exact .single hparent
    · exact .head hparent (ih h)

omit [DecidableEq Element] in
theorem parentOrHostElement_of_mem_siblings (h : x ∈ t.previousSiblings e) :
    t.parentOrHostElement x = t.parentOrHostElement e := by
  induction e using t.induction_sibling with
  | first e hnone =>
    rw [previousSiblings_of_none hnone] at h
    cases h
  | next e s hsome ih =>
    rw [previousSiblings_of_some hsome] at h
    rw [← t.parentOrHostElement_of_sibling hsome]
    rcases mem_cons.mp h with rfl | h
    · rfl
    · exact ih h

omit [DecidableEq Element] in
theorem hostAbove_congr (h : t.parentOrHostElement x = t.parentOrHostElement e)
    (ha : HostAbove t x a) : HostAbove t e a := by
  obtain ⟨p, hp, hrest⟩ := (head'_iff).mp ha
  exact head'_iff.mpr ⟨p, h ▸ hp, hrest⟩

/-- Where the loop is: what is above the current element is above the first one, and so is the
current element itself where sub-selectors are not skipped. -/
structure Position (t : Forest Element) (e x : Element) (skipOverSubselectors : Bool) : Prop where
  above : ∀ a, HostAbove t x a → HostAbove t e a
  current : skipOverSubselectors = false → HostAbove t e x

omit [DecidableEq Element] in
theorem Position.beside (h : Position t e x skip)
    (hparent : t.parentOrHostElement y = t.parentOrHostElement x) : Position t e y true where
  above a ha := h.above a (hostAbove_congr hparent ha)
  current := nofun

omit [DecidableEq Element] in
theorem Position.up (h : Position t e x skip) (hy : HostAbove t x y) (skip' : Bool) :
    Position t e y skip' where
  above a ha := h.above a (hy.trans ha)
  current _ := h.above y hy

/-- Each entry of the loop is a zero or the hash of an identifier above the element. -/
theorem collectLoop_sound
    (hmatch : (t.checkSelector checkerState (checker.checkOneSelector t) s history context
      dynamicPseudo).1 = .selectorMatches)
    (hposition : Position t e context.element skip)
    (hwritten : ∀ h ∈ written, h = 0 ∨ IsAbove hash t e h) :
    ∀ h ∈ collectLoop hash maximum s.relation skip history written, h = 0 ∨ IsAbove hash t e h := by
  induction history generalizing s context dynamicPseudo skip written with
  | nil =>
    intro h hh
    rcases mem_append.mp hh with hh | hh
    · exact hwritten h hh
    · exact .inl (mem_singleton.mp hh)
  | cons next history ih =>
    obtain ⟨context', dynamicPseudo', hfollows, hnext⟩ := checkSelector_cons_matches hmatch
    have hcollected : HostAbove t e context'.element →
        ∀ h ∈ collectDescendantSelectorIdentifierHashes hash next maximum written,
          h = 0 ∨ IsAbove hash t e h := fun habove =>
      collectDescendant_sound (checkOne_of_matches hnext)
        (fun h hh => .inr ⟨context'.element, habove, hh⟩) hwritten
    have hstep : Position t e context'.element
          (collectNext hash maximum s.relation skip next written).1 ∧
        ∀ h ∈ (collectNext hash maximum s.relation skip next written).2,
          h = 0 ∨ IsAbove hash t e h := by
      generalize s.relation = relation at hfollows
      cases hfollows with
      | shadowDescendant h => exact ⟨hposition.up (t.shadowHost_above h) true, hwritten⟩
      | related h =>
        generalize context'.element = y at h hcollected
        cases h with
        | descendant h =>
          have hbelow := hposition.up (hostAbove_of_mem_ancestors h) false
          exact ⟨hbelow, hcollected (hbelow.current rfl)⟩
        | child h =>
          have habove : HostAbove t context.element y :=
            .single (t.parentOrHostElement_of_parentElement h)
          have hbelow := hposition.up habove false
          exact ⟨hbelow, hcollected (hbelow.current rfl)⟩
        | directAdjacent h =>
          exact ⟨hposition.beside (t.parentOrHostElement_of_sibling h), hwritten⟩
        | indirectAdjacent h =>
          exact ⟨hposition.beside (parentOrHostElement_of_mem_siblings h), hwritten⟩
        | subSelector =>
          cases skip with
          | true => exact ⟨hposition, hwritten⟩
          | false => exact ⟨hposition, hcollected (hposition.current rfl)⟩
    rw [collectLoop]
    split
    · exact hstep.2
    · exact ih hnext hstep.1 hstep.2

omit [DecidableEq Element] in
theorem position_initial (e : Element) : Position t e e true := ⟨fun _ => id, nofun⟩

/-! ## The bounds of the array -/

omit [DecidableEq Element] in
theorem length_collectDescendant_le (h : written.length < maximum) :
    (collectDescendantSelectorIdentifierHashes hash s maximum written).length ≤ maximum := by
  unfold collectDescendantSelectorIdentifierHashes
  extract_lets written'
  have hwritten' : written'.length ≤ maximum := by
    dsimp only [written']
    split
    · split
      · exact h.le
      · rwa [length_append]
    · split
      · exact h.le
      · rwa [length_append]
    · exact h.le
  split
  · exact hwritten'
  · next hne =>
    split
    · rw [length_append]
      exact hwritten'.lt_of_ne hne
    · exact hwritten'

omit [DecidableEq Element] in
/-- The loop writes no more than the array holds, and where it does not fill it, it ends with a
zero. -/
theorem collectLoop_bounds (h : written.length < maximum) :
    (collectLoop hash maximum relation skip history written).length ≤ maximum ∧
      ((collectLoop hash maximum relation skip history written).length = maximum ∨
        ∃ hashes, collectLoop hash maximum relation skip history written = hashes ++ [0]) := by
  induction history generalizing relation skip written with
  | nil =>
    rw [collectLoop, length_append]
    exact ⟨h, .inr ⟨written, rfl⟩⟩
  | cons next history ih =>
    have hnext : (collectNext hash maximum relation skip next written).2.length ≤ maximum := by
      have hcollected : (collectDescendantSelectorIdentifierHashes hash next maximum written).length ≤
          maximum := length_collectDescendant_le h
      cases relation with
      | subSelector =>
        rw [collectNext]
        dsimp only
        split
        · exact h.le
        · exact hcollected
      | descendant | child => exact hcollected
      | directAdjacent | indirectAdjacent | shadowDescendant => exact h.le
    rw [collectLoop]
    split
    · next hfull => exact ⟨hnext, .inl hfull⟩
    · next hroom => exact ih (hnext.lt_of_ne hroom)

/-- What is read up to a zero stands before it. -/
theorem mem_of_mem_takeWhile {n : ℕ} {hashes rest : List UInt32} {h : UInt32}
    (hh : h ∈ ((hashes ++ 0 :: rest).take n).takeWhile (· != 0)) : h ∈ hashes := by
  induction hashes generalizing n with
  | nil => cases n <;> cases hh
  | cons a hashes ih =>
    cases n with
    | zero => cases hh
    | succ n =>
      rw [cons_append, take_succ_cons, takeWhile_cons] at hh
      split at hh
      · rcases mem_cons.mp hh with rfl | hh
        · exact mem_cons_self
        · exact mem_cons_of_mem a (ih hh)
      · cases hh

/-- The entries that are read are among those that were written, whatever stands behind them. -/
theorem mem_written (hwritten : written.length = n ∨ ∃ hashes, written = hashes ++ [0])
    (hh : h ∈ ((written ++ unwritten).take n).takeWhile (· != 0)) : h ∈ written ∧ h ≠ 0 := by
  have hne : (h != 0) = true := mem_takeWhile_imp (p := (· != 0)) hh
  refine ⟨?_, bne_iff_ne.mp hne⟩
  rcases hwritten with rfl | ⟨hashes, rfl⟩
  · rw [take_left] at hh
    exact (takeWhile_sublist _).mem hh
  · rw [append_assoc] at hh
    exact mem_append_left _ (mem_of_mem_takeWhile hh)

end Identifiers

/-! ## Rejection -/

/-- No rule is rejected whose selector matches, in any context of the element, and what is collected
fits into the array. -/
theorem not_matches_of_fastReject [DecidableEq Element] {hash : UString → UInt32}
    {stack : ParentStack Element} (hwalk : Walk hash t stack) {top : ParentStackFrame Element}
    {frames : List (ParentStackFrame Element)} (hstack : stack.m_parentStack = top :: frames)
    {e : Element} (hparent : t.parentOrHostElement e = some top.element)
    {maximumIdentifierCount : ℕ} (hmaximum : 0 < maximumIdentifierCount)
    (selector : CSSSelector Pseudo) (history : List (CSSSelector Pseudo)) :
    let written := collectIdentifierHashes hash maximumIdentifierCount selector history
    written.length ≤ maximumIdentifierCount ∧
      ∃ filter, stack.m_ancestorIdentifierFilter = some filter ∧
        ∀ unwritten, fastRejectSelector maximumIdentifierCount filter (written ++ unwritten) = true →
          ∀ (checker : SelectorChecker Element Pseudo) (context : CheckingContext Element)
            (dynamicPseudo : PseudoId), context.element = e →
            (t.checkSelector checker.toCheckerState (checker.checkOneSelector t) selector history
              context dynamicPseudo).1 ≠ .selectorMatches := by
  intro written
  have hbounds : written.length ≤ maximumIdentifierCount ∧ (written.length =
      maximumIdentifierCount ∨ ∃ hashes, written = hashes ++ [0]) := collectLoop_bounds hmaximum
  obtain ⟨hlength, hend⟩ := hbounds
  have hne : stack.m_parentStack ≠ [] := by rw [hstack]; exact cons_ne_nil top frames
  obtain ⟨hway, hidentifiers, filter, hfilter, hcounts⟩ := hwalk.maintained hne
  refine ⟨hlength, filter, hfilter, fun unwritten hreject => ?_⟩
  rintro checker context dynamicPseudo rfl hmatch
  rw [fastRejectSelector, any_eq_true] at hreject
  obtain ⟨h, hmem, hmissing⟩ := hreject
  obtain ⟨hwritten, hnonzero⟩ := mem_written hend hmem
  rcases collectLoop_sound hmatch (position_initial _) (by simp) h hwritten with hzero | habove
  · exact hnonzero hzero
  · obtain ⟨a, ha, hidentifier⟩ := habove
    rw [hstack, List.head?_cons, Option.map_some, ← hparent, ← hstack] at hway
    obtain ⟨frame, hframe, rfl⟩ := hway.exists_frame ha
    have hmay := hcounts.mayContain (mem_flatMap.mpr
      ⟨frame, hframe, (hidentifiers frame hframe).symm ▸ hidentifier⟩)
    rw [hmay] at hmissing
    cases hmissing

def hashOfA (name : UString) : UInt32 := if name = [ch 'a'] then 1 else 2

/-- An element `a` is pushed, and `b > *` is checked for its child: it is rejected. -/
theorem not_matches_of_fastReject_child :
    let child : CSSSelector Empty := ⟨anyQName, .matchNone, .child⟩
    let b : CSSSelector Empty := ⟨⟨none, [ch 'b'], none⟩, .matchNone, .descendant⟩
    ∃ filter, (ParentStack.setupParentStack hashOfA twoElements false).m_ancestorIdentifierFilter =
        some filter ∧
      fastRejectSelector 4 filter (collectIdentifierHashes hashOfA 4 child [b]) = true ∧
        ∀ (checker : SelectorChecker Bool Empty) (context : CheckingContext Bool)
          (dynamicPseudo : PseudoId), context.element = true →
            (twoElements.checkSelector checker.toCheckerState (checker.checkOneSelector twoElements)
              child [b] context dynamicPseudo).1 ≠ .selectorMatches := by
  intro child b
  have hfilter : (ParentStack.setupParentStack hashOfA twoElements false) =
      ⟨[⟨false, [13]⟩], some (BloomFilter.clear.add 13)⟩ := by
    rw [ParentStack.setupParentStack, parentsOrHosts]
    rfl
  have hreject : fastRejectSelector 4 (BloomFilter.clear.add 13)
      (collectIdentifierHashes hashOfA 4 child [b]) = true := by decide
  have hwalk : Walk hashOfA twoElements (ParentStack.setupParentStack hashOfA twoElements false) :=
    ⟨twoElements, .single (.setupParentStack twoElements .initial false)⟩
  have hmaximum : 0 < 4 := by decide
  obtain ⟨-, filter, hsome, hsound⟩ := not_matches_of_fastReject hwalk (e := true)
    (congrArg ParentStack.m_parentStack hfilter) rfl hmaximum child [b]
  obtain rfl : BloomFilter.clear.add 13 = filter :=
    Option.some_inj.mp ((congrArg ParentStack.m_ancestorIdentifierFilter hfilter).symm.trans hsome)
  refine ⟨_, hsome, hreject, hsound [] ?_⟩
  rw [append_nil]
  exact hreject

end WebKit.CSS
