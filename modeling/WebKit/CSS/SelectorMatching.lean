import WebKit.CSS.SelectorChecker

/-!
# What a selector matches

A selector matches an element where its simple selectors can be assigned to elements, the rightmost
one to the element, as the combinators between them ask.  The recursion finds this out with one
answer for each element, which says also where else there is no use in looking.

* `Assigns` and `Matches`: the meaning of a selector.
* `Verdict`: what each answer says.
* `checkSelector_matches_iff`: the recursion finds the matches, and its answers are right.
-/

namespace WebKit.CSS

open WTF
open List Forest

variable {Element Pseudo : Type*}

/-! ## Ancestors and siblings -/

namespace Forest

variable {t : Forest Element} {e p s x y : Element}

theorem ancestors_of_none (h : t.parentElement e = none) : t.ancestors e = [] := by
  rw [ancestors]
  split
  · rfl
  · rename_i heq
    rw [h] at heq
    cases heq

theorem ancestors_of_some (h : t.parentElement e = some p) :
    t.ancestors e = p :: t.ancestors p := by
  rw [ancestors]
  split
  · rename_i heq
    rw [h] at heq
    cases heq
  · rename_i heq
    rw [h] at heq
    cases heq
    rfl

theorem previousSiblings_of_none (h : t.previousElementSibling e = none) :
    t.previousSiblings e = [] := by
  rw [previousSiblings]
  split
  · rfl
  · rename_i heq
    rw [h] at heq
    cases heq

theorem previousSiblings_of_some (h : t.previousElementSibling e = some s) :
    t.previousSiblings e = s :: t.previousSiblings s := by
  rw [previousSiblings]
  split
  · rename_i heq
    rw [h] at heq
    cases heq
  · rename_i heq
    rw [h] at heq
    cases heq
    rfl

/-- Induction from the roots down. -/
theorem induction_parent {P : Element → Prop} (root : ∀ e, t.parentElement e = none → P e)
    (below : ∀ e p, t.parentElement e = some p → P p → P e) (e : Element) : P e := by
  induction hn : t.depth e using Nat.strong_induction_on generalizing e with
  | _ n ih =>
    cases h : t.parentElement e with
    | none => exact root e h
    | some p =>
      have hlt := t.depth_lt (t.parentOrHostElement_of_parentElement h)
      exact below e p h (ih _ (hn ▸ hlt) p rfl)

/-- Induction from the first siblings on. -/
theorem induction_sibling {P : Element → Prop}
    (first : ∀ e, t.previousElementSibling e = none → P e)
    (next : ∀ e s, t.previousElementSibling e = some s → P s → P e) (e : Element) : P e := by
  induction hn : t.index e using Nat.strong_induction_on generalizing e with
  | _ n ih =>
    cases h : t.previousElementSibling e with
    | none => exact first e h
    | some s => exact next e s h (ih _ (hn ▸ t.index_lt h) s rfl)

theorem mem_ancestors_trans (hx : x ∈ t.ancestors e) (hy : y ∈ t.ancestors x) :
    y ∈ t.ancestors e := by
  induction e using t.induction_parent with
  | root e h =>
    rw [ancestors_of_none h] at hx
    cases hx
  | below e p h ih =>
    rw [ancestors_of_some h, mem_cons] at hx ⊢
    rcases hx with rfl | hx
    · exact .inr hy
    · exact .inr (ih hx)

theorem mem_previousSiblings_trans (hx : x ∈ t.previousSiblings e)
    (hy : y ∈ t.previousSiblings x) : y ∈ t.previousSiblings e := by
  induction e using t.induction_sibling with
  | first e h =>
    rw [previousSiblings_of_none h] at hx
    cases hx
  | next e s h ih =>
    rw [previousSiblings_of_some h, mem_cons] at hx ⊢
    rcases hx with rfl | hx
    · exact .inr hy
    · exact .inr (ih hx)

theorem parentElement_of_mem_siblings (h : s ∈ t.previousSiblings e) :
    t.parentElement s = t.parentElement e := by
  induction e using t.induction_sibling with
  | first e hnone =>
    rw [previousSiblings_of_none hnone] at h
    cases h
  | next e s' hsome ih =>
    rw [previousSiblings_of_some hsome, mem_cons] at h
    rw [← t.parentElement_of_sibling hsome]
    rcases h with rfl | h
    · rfl
    · exact ih h

theorem ancestors_congr (h : t.parentElement x = t.parentElement y) :
    t.ancestors x = t.ancestors y := by
  cases hx : t.parentElement x with
  | none => rw [ancestors_of_none hx, ancestors_of_none (h.symm.trans hx)]
  | some p => rw [ancestors_of_some hx, ancestors_of_some (h.symm.trans hx)]

/-- An element with the siblings before it. -/
def siblingsUpTo (t : Forest Element) (e : Element) : List Element := e :: t.previousSiblings e

theorem parentElement_of_mem_upTo (h : x ∈ t.siblingsUpTo e) :
    t.parentElement x = t.parentElement e := by
  rcases mem_cons.mp h with rfl | h
  · rfl
  · exact parentElement_of_mem_siblings h

theorem mem_siblingsUpTo_trans (hx : x ∈ t.siblingsUpTo e) (hy : y ∈ t.siblingsUpTo x) :
    y ∈ t.siblingsUpTo e := by
  rcases mem_cons.mp hy with rfl | hy
  · exact hx
  · rcases mem_cons.mp hx with rfl | hx
    · exact mem_cons_of_mem x hy
    · exact mem_cons_of_mem e (mem_previousSiblings_trans hx hy)

/-- The elements that are still tried after an element: it, its ancestors, and the siblings before
all of them. -/
def Above (t : Forest Element) (e x : Element) : Prop :=
  ∃ a ∈ e :: t.ancestors e, x ∈ t.siblingsUpTo a

theorem above_of_upTo (h : x ∈ t.siblingsUpTo e) : t.Above e x := ⟨e, mem_cons_self, h⟩

theorem above_of_ancestor (h : x ∈ t.ancestors e) : t.Above e x :=
  ⟨x, mem_cons_of_mem e h, mem_cons_self⟩

theorem above_self (t : Forest Element) (e : Element) : t.Above e e :=
  above_of_upTo mem_cons_self

/-- What is above an element has its ancestors among those of the element. -/
theorem Above.ancestors (h : t.Above e x) (hy : y ∈ t.ancestors x) : y ∈ t.ancestors e := by
  obtain ⟨a, ha, hx⟩ := h
  rw [ancestors_congr (parentElement_of_mem_upTo hx)] at hy
  rcases mem_cons.mp ha with rfl | ha
  · exact hy
  · exact mem_ancestors_trans ha hy

theorem mem_ancestors_of_parent (h : t.parentElement e = some p) : p ∈ t.ancestors e := by
  rw [ancestors_of_some h]
  exact mem_cons_self

theorem mem_previousSiblings_of_sibling (h : t.previousElementSibling e = some s) :
    s ∈ t.previousSiblings e := by
  rw [previousSiblings_of_some h]
  exact mem_cons_self

/-- The siblings before what is above an element are above its previous sibling, if it has one. -/
theorem Above.sibling (h : t.Above e x) (hs : t.previousElementSibling e = some s)
    (hy : y ∈ t.previousSiblings x) : t.Above s y := by
  obtain ⟨a, ha, hx⟩ := h
  rcases mem_cons.mp ha with rfl | ha
  · refine above_of_upTo ?_
    have hmem : y ∈ t.previousSiblings a := by
      rcases mem_cons.mp hx with rfl | hx
      · exact hy
      · exact mem_previousSiblings_trans hx hy
    rw [previousSiblings_of_some hs] at hmem
    exact hmem
  · have hsame : a ∈ t.ancestors s := by
      rwa [ancestors_congr (t.parentElement_of_sibling hs)]
    exact ⟨a, mem_cons_of_mem s hsame, mem_siblingsUpTo_trans hx (mem_cons_of_mem x hy)⟩

end Forest

/-! ## The meaning of a selector -/

/-- The elements that a combinator joins, the one on its right first. -/
inductive Related (t : Forest Element) : Relation → Element → Element → Prop
  | descendant {e a : Element} (h : a ∈ t.ancestors e) : Related t .descendant e a
  | child {e p : Element} (h : t.parentElement e = some p) : Related t .child e p
  | directAdjacent {e s : Element} (h : t.previousElementSibling e = some s) :
      Related t .directAdjacent e s
  | indirectAdjacent {e s : Element} (h : s ∈ t.previousSiblings e) :
      Related t .indirectAdjacent e s
  | subSelector (e : Element) : Related t .subSelector e e

/-- The simple selectors of a selector are assigned to elements that fulfil them. -/
inductive Assigns (t : Forest Element) (fulfils : CSSSelector Pseudo → Element → Prop) :
    List (CSSSelector Pseudo) → List Element → Prop
  | one {selector : CSSSelector Pseudo} {e : Element} (h : fulfils selector e) :
      Assigns t fulfils [selector] [e]
  | cons {selector next : CSSSelector Pseudo} {history : List (CSSSelector Pseudo)}
      {e e' : Element} {elements : List Element} (h : fulfils selector e)
      (hrelated : Related t selector.relation e e')
      (rest : Assigns t fulfils (next :: history) (e' :: elements)) :
      Assigns t fulfils (selector :: next :: history) (e :: e' :: elements)

/-- There is an assignment with the element for the rightmost simple selector. -/
def Matches (t : Forest Element) (fulfils : CSSSelector Pseudo → Element → Prop)
    (selector : CSSSelector Pseudo) (history : List (CSSSelector Pseudo)) (e : Element) : Prop :=
  ∃ elements, Assigns t fulfils (selector :: history) (e :: elements)

variable {t : Forest Element} {fulfils : CSSSelector Pseudo → Element → Prop}
  {selector next : CSSSelector Pseudo} {history : List (CSSSelector Pseudo)} {e : Element}

theorem matches_nil_iff : Matches t fulfils selector [] e ↔ fulfils selector e := by
  constructor
  · rintro ⟨elements, h⟩
    cases h with
    | one h => exact h
  · exact fun h => ⟨[], .one h⟩

theorem matches_cons_iff : Matches t fulfils selector (next :: history) e ↔
    fulfils selector e ∧ ∃ e', Related t selector.relation e e' ∧
      Matches t fulfils next history e' := by
  constructor
  · rintro ⟨elements, h⟩
    cases h with
    | cons h hrelated rest => exact ⟨h, _, hrelated, _, rest⟩
  · rintro ⟨h, e', hrelated, elements, rest⟩
    exact ⟨e' :: elements, .cons h hrelated rest⟩

/-! ## The answers -/

/-- What an answer says of the elements that match. -/
def Verdict (t : Forest Element) (M : Element → Prop) (e : Element) : SelectorMatch → Prop
  | .selectorMatches => M e
  | .selectorFailsLocally => ¬M e
  | .selectorFailsAllSiblings => ∀ x ∈ t.siblingsUpTo e, ¬M x
  | .selectorFailsCompletely => ∀ x, t.Above e x → ¬M x

variable {M M' : Element → Prop} {result : SelectorMatch}

theorem Verdict.matches_iff (h : Verdict t M e result) : result = .selectorMatches ↔ M e := by
  cases result with
  | selectorMatches => exact ⟨fun _ => h, fun _ => rfl⟩
  | selectorFailsLocally => exact ⟨nofun, fun hM => absurd hM h⟩
  | selectorFailsAllSiblings => exact ⟨nofun, fun hM => absurd hM (h e mem_cons_self)⟩
  | selectorFailsCompletely => exact ⟨nofun, fun hM => absurd hM (h e (t.above_self e))⟩

/-- Fewer elements match, but the element itself still does. -/
theorem Verdict.mono (h : Verdict t M' e result) (hM : ∀ x, M x → M' x) (he : M' e → M e) :
    Verdict t M e result := by
  cases result with
  | selectorMatches => exact he h
  | selectorFailsLocally => exact fun hMe => h (hM e hMe)
  | _ => exact fun x hx hMx => h x hx (hM x hMx)

/-- The elements that have a match where a combinator leads. -/
def Leads (t : Forest Element) (M : Element → Prop) (relation : Relation) (e : Element) : Prop :=
  ∃ e', Related t relation e e' ∧ M e'

theorem leads_descendant : Leads t M .descendant e ↔ ∃ a ∈ t.ancestors e, M a := by
  constructor
  · rintro ⟨a, hrelated, hM⟩
    cases hrelated with
    | descendant h => exact ⟨a, h, hM⟩
  · rintro ⟨a, h, hM⟩
    exact ⟨a, .descendant h, hM⟩

theorem leads_child : Leads t M .child e ↔ ∃ p, t.parentElement e = some p ∧ M p := by
  constructor
  · rintro ⟨p, hrelated, hM⟩
    cases hrelated with
    | child h => exact ⟨p, h, hM⟩
  · rintro ⟨p, h, hM⟩
    exact ⟨p, .child h, hM⟩

theorem leads_directAdjacent :
    Leads t M .directAdjacent e ↔ ∃ s, t.previousElementSibling e = some s ∧ M s := by
  constructor
  · rintro ⟨s, hrelated, hM⟩
    cases hrelated with
    | directAdjacent h => exact ⟨s, h, hM⟩
  · rintro ⟨s, h, hM⟩
    exact ⟨s, .directAdjacent h, hM⟩

theorem leads_indirectAdjacent :
    Leads t M .indirectAdjacent e ↔ ∃ s ∈ t.previousSiblings e, M s := by
  constructor
  · rintro ⟨s, hrelated, hM⟩
    cases hrelated with
    | indirectAdjacent h => exact ⟨s, h, hM⟩
  · rintro ⟨s, h, hM⟩
    exact ⟨s, .indirectAdjacent h, hM⟩

theorem leads_subSelector : Leads t M .subSelector e ↔ M e := by
  constructor
  · rintro ⟨_, ⟨⟩, hM⟩
    exact hM
  · exact fun hM => ⟨e, .subSelector e, hM⟩

/-! ### The answers at a combinator -/

theorem verdict_child {p : Element} (hp : t.parentElement e = some p)
    (h : Verdict t M p result) : Verdict t (Leads t M .child) e result := by
  have hiff : ∀ {x}, t.parentElement x = some p → (Leads t M .child x ↔ M p) := by
    intro x hx
    rw [leads_child, hx]
    simp
  cases result with
  | selectorMatches => exact (hiff hp).mpr h
  | selectorFailsLocally => exact fun hM => h ((hiff hp).mp hM)
  | selectorFailsAllSiblings =>
    intro x hx hM
    exact h p mem_cons_self
      ((hiff ((parentElement_of_mem_upTo hx).trans hp)).mp hM)
  | selectorFailsCompletely =>
    intro x hx hM
    obtain ⟨q, hq, hMq⟩ := leads_child.mp hM
    have hmem := hx.ancestors (mem_ancestors_of_parent hq)
    rw [ancestors_of_some hp, mem_cons] at hmem
    rcases hmem with rfl | hmem
    · exact h q (t.above_self q) hMq
    · exact h q (above_of_ancestor hmem) hMq

theorem verdict_child_none (hp : t.parentElement e = none) :
    Verdict t (Leads t M .child) e .selectorFailsCompletely := by
  intro x hx hM
  obtain ⟨q, hq, -⟩ := leads_child.mp hM
  have hmem := hx.ancestors (mem_ancestors_of_parent hq)
  rw [ancestors_of_none hp] at hmem
  cases hmem

theorem verdict_directAdjacent {s : Element} (hs : t.previousElementSibling e = some s)
    (h : Verdict t M s result) : Verdict t (Leads t M .directAdjacent) e result := by
  have hiff : Leads t M .directAdjacent e ↔ M s := by
    rw [leads_directAdjacent, hs]
    simp
  cases result with
  | selectorMatches => exact hiff.mpr h
  | selectorFailsLocally => exact fun hM => h (hiff.mp hM)
  | selectorFailsAllSiblings =>
    intro x hx hM
    obtain ⟨s', hs', hMs⟩ := leads_directAdjacent.mp hM
    have hmem : s' ∈ t.previousSiblings e := by
      have hmem := mem_previousSiblings_of_sibling hs'
      rcases mem_cons.mp hx with rfl | hx
      · exact hmem
      · exact mem_previousSiblings_trans hx hmem
    rw [previousSiblings_of_some hs] at hmem
    exact h s' hmem hMs
  | selectorFailsCompletely =>
    intro x hx hM
    obtain ⟨s', hs', hMs⟩ := leads_directAdjacent.mp hM
    exact h s' (hx.sibling hs (mem_previousSiblings_of_sibling hs')) hMs

theorem verdict_directAdjacent_none (hs : t.previousElementSibling e = none) :
    Verdict t (Leads t M .directAdjacent) e .selectorFailsAllSiblings := by
  intro x hx hM
  rw [siblingsUpTo, previousSiblings_of_none hs, mem_singleton] at hx
  subst hx
  obtain ⟨s', hs', -⟩ := leads_directAdjacent.mp hM
  rw [hs] at hs'
  cases hs'

/-- The root of a cloned tree has nothing above it. -/
theorem verdict_svgShadowRoot (hsvg : t.isSVGShadowRoot e = true)
    (hM : M e → t.isSVGShadowRoot e = false) : Verdict t M e .selectorFailsCompletely := by
  obtain ⟨hparent, hsibling, -⟩ := t.svgShadowRoot_alone hsvg
  rintro x ⟨a, ha, hx⟩ hMx
  rw [ancestors_of_none hparent, mem_singleton] at ha
  subst ha
  rw [siblingsUpTo, previousSiblings_of_none hsibling, mem_singleton] at hx
  subst hx
  rw [hM hMx] at hsvg
  cases hsvg

theorem verdict_subSelector (h : Verdict t M e result) :
    Verdict t (Leads t M .subSelector) e result :=
  h.mono (fun _ hM => leads_subSelector.mp hM) leads_subSelector.mpr

/-- A check gives right answers, and it finds no pseudo element. -/
def Answers (t : Forest Element) (M : Element → Prop) (check : Element → PseudoId → Checked) :
    Prop :=
  ∀ a, Verdict t M a (check a .noPseudo).1 ∧ (check a .noPseudo).2 = .noPseudo

variable {check : Element → PseudoId → Checked}

variable (hcheck : Answers t M check)

include hcheck

/-- The loop over the ancestors finds the first match of them, or there is none. -/
theorem checkAncestors_cases [DecidableEq Element] (e : Element) :
    checkAncestors check none (t.ancestors e) .noPseudo = (.selectorMatches, .noPseudo) ∧
        (∃ a ∈ t.ancestors e, M a) ∨
      checkAncestors check none (t.ancestors e) .noPseudo =
          (.selectorFailsCompletely, .noPseudo) ∧ ∀ a ∈ t.ancestors e, ¬M a := by
  induction e using t.induction_parent with
  | root e h =>
    rw [ancestors_of_none h]
    exact .inr ⟨rfl, nofun⟩
  | below e p h ih =>
    obtain ⟨hp, hleft⟩ := hcheck p
    rw [ancestors_of_some h, checkAncestors, forall_mem_cons]
    rcases hresult : check p .noPseudo with ⟨result, left⟩
    rw [hresult] at hp hleft
    obtain rfl : left = .noPseudo := hleft
    -- an ancestor that fails by itself or with its siblings is passed over
    have hpass : ¬M p → checkAncestors check none (t.ancestors p) .noPseudo =
          (.selectorMatches, .noPseudo) ∧ (∃ a ∈ p :: t.ancestors p, M a) ∨
        checkAncestors check none (t.ancestors p) .noPseudo =
          (.selectorFailsCompletely, .noPseudo) ∧ (¬M p ∧ ∀ a ∈ t.ancestors p, ¬M a) := by
      intro hnot
      rcases ih with ⟨heq, a, ha, hM⟩ | ⟨heq, hnone⟩
      · exact .inl ⟨heq, a, mem_cons_of_mem p ha, hM⟩
      · exact .inr ⟨heq, hnot, hnone⟩
    cases result with
    | selectorMatches => exact .inl ⟨rfl, p, mem_cons_self, hp⟩
    | selectorFailsLocally => exact hpass hp
    | selectorFailsAllSiblings => exact hpass (hp p mem_cons_self)
    | selectorFailsCompletely =>
      exact .inr ⟨rfl, hp p (t.above_self p), fun a ha => hp a (above_of_ancestor ha)⟩

theorem answers_descendant [DecidableEq Element] :
    Answers t (Leads t M .descendant) fun e dynamicPseudo =>
      checkAncestors check none (t.ancestors e) dynamicPseudo := by
  intro e
  dsimp only
  rcases checkAncestors_cases hcheck e with ⟨heq, h⟩ | ⟨heq, h⟩
  · rw [heq]
    exact ⟨leads_descendant.mpr h, rfl⟩
  · rw [heq]
    refine ⟨fun x hx hM => ?_, rfl⟩
    obtain ⟨a, ha, hMa⟩ := leads_descendant.mp hM
    exact h a (hx.ancestors ha) hMa

omit hcheck in
/-- What is above an element is the element or above the sibling before it. -/
theorem above_sibling (hs : t.previousElementSibling e = some s)
    (hx : t.Above e x) : x = e ∨ t.Above s x := by
  obtain ⟨a, ha, hx⟩ := hx
  rcases mem_cons.mp ha with rfl | ha
  · rw [siblingsUpTo, previousSiblings_of_some hs] at hx
    exact (mem_cons.mp hx).imp_right above_of_upTo
  · rw [← ancestors_congr (t.parentElement_of_sibling hs)] at ha
    exact .inr ⟨a, mem_cons_of_mem s ha, hx⟩

/-- The loop over the siblings finds the first match of them, or it says why there is none. -/
theorem checkSiblings_cases (e : Element) :
    checkSiblings check (t.previousSiblings e) .noPseudo = (.selectorMatches, .noPseudo) ∧
        (∃ s ∈ t.previousSiblings e, M s) ∨
      checkSiblings check (t.previousSiblings e) .noPseudo =
          (.selectorFailsAllSiblings, .noPseudo) ∧ (∀ s ∈ t.previousSiblings e, ¬M s) ∨
      checkSiblings check (t.previousSiblings e) .noPseudo = (.selectorFailsCompletely, .noPseudo) ∧
        ∃ s, t.previousElementSibling e = some s ∧ ∀ x, t.Above s x → ¬M x := by
  induction e using t.induction_sibling with
  | first e h =>
    rw [previousSiblings_of_none h]
    exact .inr (.inl ⟨rfl, nofun⟩)
  | next e s h ih =>
    obtain ⟨hs, hleft⟩ := hcheck s
    rw [previousSiblings_of_some h, checkSiblings, forall_mem_cons]
    rcases hresult : check s .noPseudo with ⟨result, left⟩
    rw [hresult] at hs hleft
    obtain rfl : left = .noPseudo := hleft
    cases result with
    | selectorMatches => exact .inl ⟨rfl, s, mem_cons_self, hs⟩
    | selectorFailsLocally =>
      rcases ih with ⟨heq, x, hx, hM⟩ | ⟨heq, hnone⟩ | ⟨heq, s', hs', hnone⟩
      · exact .inl ⟨heq, x, mem_cons_of_mem s hx, hM⟩
      · exact .inr (.inl ⟨heq, hs, hnone⟩)
      · refine .inr (.inr ⟨heq, s, h, fun x hx => ?_⟩)
        rcases above_sibling hs' hx with rfl | hx
        · exact hs
        · exact hnone x hx
    | selectorFailsAllSiblings =>
      exact .inr (.inl ⟨rfl, hs s mem_cons_self, fun x hx => hs x (mem_cons_of_mem s hx)⟩)
    | selectorFailsCompletely => exact .inr (.inr ⟨rfl, s, h, hs⟩)

theorem answers_indirectAdjacent :
    Answers t (Leads t M .indirectAdjacent) fun e dynamicPseudo =>
      checkSiblings check (t.previousSiblings e) dynamicPseudo := by
  intro e
  dsimp only
  rcases checkSiblings_cases hcheck e with ⟨heq, h⟩ | ⟨heq, h⟩ | ⟨heq, s, hs, h⟩
  · rw [heq]
    exact ⟨leads_indirectAdjacent.mpr h, rfl⟩
  · rw [heq]
    refine ⟨fun x hx hM => ?_, rfl⟩
    obtain ⟨s, hs, hMs⟩ := leads_indirectAdjacent.mp hM
    refine h s ?_ hMs
    rcases mem_cons.mp hx with rfl | hx
    · exact hs
    · exact mem_previousSiblings_trans hx hs
  · rw [heq]
    refine ⟨fun x hx hM => ?_, rfl⟩
    obtain ⟨s', hs', hMs⟩ := leads_indirectAdjacent.mp hM
    exact h s' (hx.sibling hs hs') hMs

omit hcheck

/-! ## The recursion -/

section Recursion

variable [DecidableEq Element] (checker : CheckerState) (p : CSSSelector Pseudo → Element → Bool)

/-- A check that asks an element alone. -/
def checkElement (selector : CSSSelector Pseudo) (context : CheckingContext Element)
    (dynamicPseudo : PseudoId) : Bool × PseudoId :=
  (p selector context.element, dynamicPseudo)

/-- An element fulfils a simple selector.  The root of a tree that `use` clones fulfils none. -/
def Fulfils (t : Forest Element) (selector : CSSSelector Pseudo) (e : Element) : Prop :=
  p selector e = true ∧ t.isSVGShadowRoot e = false

omit [DecidableEq Element] in
theorem nextContext_scope (relation : Relation) (context : CheckingContext Element) :
    (t.nextContext relation context).scope = context.scope := by
  rw [nextContext]
  split <;> rfl

/-- A check of contexts gives right answers where there is no scope. -/
def AnswersIn (t : Forest Element) (M : Element → Prop)
    (check : CheckingContext Element → PseudoId → Checked) : Prop :=
  ∀ context, context.scope = none → Verdict t M context.element (check context .noPseudo).1 ∧
      (check context .noPseudo).2 = .noPseudo

/-- The answer at a combinator, from the answers for the next selector. -/
theorem answersIn_checkNext (hrelation : relation ≠ .shadowDescendant)
    {check : CheckingContext Element → PseudoId → Checked} (hcheck : AnswersIn t M check)
    (next : CSSSelector Pseudo) :
    AnswersIn t (Leads t M relation) fun context =>
      t.checkNext checker relation context next check := by
  intro context hscope
  have hnext := (nextContext_scope (t := t) relation context).trans hscope
  have hat : ∀ a, Verdict t M a (check { t.nextContext relation context with element := a }
        .noPseudo).1 ∧
      (check { t.nextContext relation context with element := a } .noPseudo).2 = .noPseudo :=
    fun a => hcheck _ hnext
  cases relation with
  | descendant =>
    dsimp only [checkNext]
    rw [hscope]
    exact answers_descendant hat context.element
  | child =>
    dsimp only [checkNext]
    cases hp : t.parentElement context.element with
    | none => exact ⟨verdict_child_none hp, rfl⟩
    | some p => exact ⟨verdict_child hp (hat p).1, (hat p).2⟩
  | directAdjacent =>
    dsimp only [checkNext]
    cases hs : t.previousElementSibling context.element with
    | none => exact ⟨verdict_directAdjacent_none hs, rfl⟩
    | some s => exact ⟨verdict_directAdjacent hs (hat s).1, (hat s).2⟩
  | indirectAdjacent =>
    exact answers_indirectAdjacent hat context.element
  | subSelector =>
    have hfollows : followsPseudoElement checker context next .noPseudo = false := by
      simp [followsPseudoElement]
    dsimp only [checkNext]
    rw [hfollows]
    exact ⟨verdict_subSelector (hat context.element).1, (hat context.element).2⟩
  | shadowDescendant => exact absurd rfl hrelation

/-- The answers of the recursion are right, with a check that asks an element alone. -/
theorem answersIn_checkSelector (hchecker : checker.pseudoStyle = .noPseudo)
    (hcheckOne : ∀ s ∈ selector :: history, ∀ context dynamicPseudo,
      checkOne s context dynamicPseudo = checkElement p s context dynamicPseudo)
    (hshadow : ∀ s ∈ selector :: history, s.relation ≠ .shadowDescendant) :
    AnswersIn t (Matches t (Fulfils p t) selector history)
      (t.checkSelector checker checkOne selector history) := by
  induction history generalizing selector with
  | nil =>
    intro context _
    rw [checkSelector]
    by_cases hsvg : t.isSVGShadowRoot context.element = true
    · rw [if_pos hsvg]
      exact ⟨verdict_svgShadowRoot hsvg fun h => (matches_nil_iff.mp h).2, rfl⟩
    · rw [if_neg hsvg, hcheckOne selector mem_cons_self, checkElement]
      cases hp : p selector context.element with
      | false => exact ⟨fun h => by simpa [hp] using (matches_nil_iff.mp h).1, rfl⟩
      | true => exact ⟨matches_nil_iff.mpr ⟨hp, Bool.eq_false_iff.mpr hsvg⟩, rfl⟩
  | cons next history ih =>
    intro context hscope
    rw [checkSelector]
    by_cases hsvg : t.isSVGShadowRoot context.element = true
    · rw [if_pos hsvg]
      exact ⟨verdict_svgShadowRoot hsvg fun h => (matches_cons_iff.mp h).1.2, rfl⟩
    · rw [if_neg hsvg, hcheckOne selector mem_cons_self, checkElement]
      cases hp : p selector context.element with
      | false => exact ⟨fun h => by simpa [hp] using (matches_cons_iff.mp h).1.1, rfl⟩
      | true =>
        have hnone : ¬(selector.relation ≠ .subSelector ∧ (context.scope = some context.element ∨
            checker.pseudoStyle ≠ .noPseudo ∧ checker.pseudoStyle ≠ .noPseudo)) := by
          simp [hscope, hchecker]
        have hnext := ih (fun s hs => hcheckOne s (mem_cons_of_mem selector hs))
          fun s hs => hshadow s (mem_cons_of_mem selector hs)
        obtain ⟨hverdict, hleft⟩ := answersIn_checkNext checker
          (hshadow selector mem_cons_self) hnext next context hscope
        dsimp only
        rw [if_neg hnone]
        refine ⟨hverdict.mono (fun x hx => (matches_cons_iff.mp hx).2) fun hleads => ?_, hleft⟩
        exact matches_cons_iff.mpr ⟨⟨hp, Bool.eq_false_iff.mpr hsvg⟩, hleads⟩

/-- The recursion returns `SelectorMatches` exactly for the elements that the selector matches, and
its other answers are right for the siblings and the ancestors that are passed over for them. -/
theorem checkSelector_matches_iff (hchecker : checker.pseudoStyle = .noPseudo)
    {selector : CSSSelector Pseudo} {history : List (CSSSelector Pseudo)}
    (hshadow : ∀ s ∈ selector :: history, s.relation ≠ .shadowDescendant)
    {context : CheckingContext Element} (hscope : context.scope = none) :
    let result := (t.checkSelector checker (checkElement p) selector history context .noPseudo).1
    (result = .selectorMatches ↔ Matches t (Fulfils p t) selector history context.element) ∧
      (result = .selectorFailsAllSiblings →
        ∀ x ∈ t.siblingsUpTo context.element, ¬Matches t (Fulfils p t) selector history x) ∧
      (result = .selectorFailsCompletely →
        ∀ x, t.Above context.element x → ¬Matches t (Fulfils p t) selector history x) := by
  have hverdict := (answersIn_checkSelector (t := t) checker p hchecker
    (fun _ _ _ _ => rfl) hshadow context hscope).1
  refine ⟨hverdict.matches_iff, fun heq => ?_, fun heq => ?_⟩
  all_goals
    rw [heq] at hverdict
    exact hverdict

end Recursion

/-! ## An element in another -/

/-- `true` is the child of `false`. -/
def twoElements : Forest Bool where
  data _ := ⟨[ch 'a'], none, none, [], []⟩
  parentElement e := if e then some false else none
  parentOrHostElement e := if e then some false else none
  previousElementSibling _ := none
  shadowHost _ := none
  treeScope _ := 0
  isLink _ := false
  isSVGShadowRoot _ := false
  depth e := if e then 1 else 0
  index _ := 0
  depth_lt {e p} h := by
    cases e
    · cases h
    · cases h
      decide
  index_lt := nofun
  parentOrHostElement_of_parentElement h := h
  parentElement_of_sibling := nofun
  parentOrHostElement_of_sibling := nofun
  shadowHost_above := nofun
  svgShadowRoot_alone := nofun

theorem checkSelector_matches_iff_child :
    let child : CSSSelector Empty := ⟨anyQName, .matchNone, .child⟩
    let result := (twoElements.checkSelector ⟨true, false, .noPseudo, false⟩
      (checkElement fun _ _ => true) child [child] (.initial true .visitedMatchDisabled)
      .noPseudo).1
    (result = .selectorMatches ↔
        Matches twoElements (Fulfils (fun _ _ => true) twoElements) child [child] true) ∧
      (result = .selectorFailsAllSiblings → ∀ x ∈ twoElements.siblingsUpTo true,
        ¬Matches twoElements (Fulfils (fun _ _ => true) twoElements) child [child] x) ∧
      (result = .selectorFailsCompletely → ∀ x, twoElements.Above true x →
        ¬Matches twoElements (Fulfils (fun _ _ => true) twoElements) child [child] x) :=
  checkSelector_matches_iff ⟨true, false, .noPseudo, false⟩ (fun _ _ => true) rfl (by simp) rfl

end WebKit.CSS
