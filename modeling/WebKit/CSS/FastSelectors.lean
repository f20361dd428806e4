import WebKit.CSS.SelectorMatching
import WebKit.CSS.SimpleSelectors

/-!
# The fast path

The fast path walks up from an element once.  It looks for the lowest place of each run of child and
sub-selector combinators, and goes back to the start of the run alone: what a run leaves to its left
is found above a higher place only if it is found above the lowest one.

* `Sound`: what the variables of the loop say about the answer.
* `fastLoop_spec`: the loop ends, with the answer.
* `fastAgrees_iff`: when the fast path and the recursion agree.
-/

namespace WebKit.CSS

open WTF
open List Forest SelectorChecker

variable {Element Pseudo : Type*} {t : Forest Element}

/-! ## Going up -/

namespace Forest

theorem upFrom_parentElement (e : Element) : t.upFrom (t.parentElement e) = t.ancestors e := by
  cases h : t.parentElement e with
  | none => rw [ancestors_of_none h]; rfl
  | some p => rw [ancestors_of_some h]; rfl

theorem length_ancestors_lt (h : x ∈ t.ancestors e) :
    (t.ancestors x).length < (t.ancestors e).length := by
  induction e using t.induction_parent with
  | root e hnone =>
    rw [ancestors_of_none hnone] at h
    cases h
  | below e p hsome ih =>
    rw [ancestors_of_some hsome]
    rw [ancestors_of_some hsome, mem_cons] at h
    rcases h with rfl | h
    · exact Nat.lt_succ_self _
    · exact Nat.lt_succ_of_lt (ih h)

theorem mem_upFrom_trans {x y : Element} {element : Option Element} (hx : x ∈ t.upFrom element)
    (hy : y ∈ t.ancestors x) : y ∈ t.upFrom element := by
  cases element with
  | none => cases hx
  | some e =>
    rcases mem_cons.mp hx with rfl | hx
    · exact mem_cons_of_mem x hy
    · exact mem_cons_of_mem e (mem_ancestors_trans hx hy)

theorem length_upFrom_le {x : Element} {element : Option Element} (h : x ∈ t.upFrom element) :
    (t.ancestors x).length + 1 ≤ (t.upFrom element).length := by
  cases element with
  | none => cases h
  | some e =>
    rcases mem_cons.mp h with rfl | h
    · exact le_rfl
    · exact Nat.succ_le_succ (Nat.le_of_lt (length_ancestors_lt h))

end Forest

/-! ## What is left to be matched -/

/-- An element matches a selector that may be at its end. -/
def MatchesFrom (t : Forest Element) (fulfils : CSSSelector Pseudo → Element → Prop) :
    List (CSSSelector Pseudo) → Element → Prop
  | [], _ => True
  | s :: history, e => Matches t fulfils s history e

variable {fulfils : CSSSelector Pseudo → Element → Prop} {s : CSSSelector Pseudo}
  {history : List (CSSSelector Pseudo)} {e : Element}

theorem matchesFrom_cons_iff (hne : history ≠ []) : MatchesFrom t fulfils (s :: history) e ↔
    fulfils s e ∧ ∃ e', Related t s.relation e e' ∧ MatchesFrom t fulfils history e' := by
  cases history with
  | nil => exact absurd rfl hne
  | cons next history => exact matches_cons_iff

theorem MatchesFrom.head (h : MatchesFrom t fulfils (s :: history) e) : fulfils s e := by
  cases history with
  | nil => exact matches_nil_iff.mp h
  | cons next history => exact (matches_cons_iff.mp h).1

/-- A selector that is joined by a child or a sub-selector combinator. -/
def Tight (s : CSSSelector Pseudo) : Prop := s.relation = .child ∨ s.relation = .subSelector

/-- Where the loop goes on after a selector. -/
def nextElement (t : Forest Element) (s : CSSSelector Pseudo) (e : Element) : Option Element :=
  if s.relation = .subSelector then some e else t.parentElement e

theorem matchesFrom_descendant (hne : history ≠ []) (hrelation : s.relation = .descendant) :
    MatchesFrom t fulfils (s :: history) e ↔
      fulfils s e ∧ ∃ a ∈ t.upFrom (nextElement t s e), MatchesFrom t fulfils history a := by
  have hnext : nextElement t s e = t.parentElement e := if_neg (by rw [hrelation]; nofun)
  rw [matchesFrom_cons_iff hne, hnext, upFrom_parentElement, hrelation]
  exact and_congr_right fun _ => leads_descendant

theorem matchesFrom_tight (hne : history ≠ []) (hrelation : Tight s) :
    MatchesFrom t fulfils (s :: history) e ↔
      fulfils s e ∧ ∃ e', nextElement t s e = some e' ∧ MatchesFrom t fulfils history e' := by
  rw [matchesFrom_cons_iff hne]
  refine and_congr_right fun _ => ?_
  rcases hrelation with hrelation | hrelation
  · rw [nextElement, hrelation]
    exact leads_child
  · rw [nextElement, hrelation]
    refine leads_subSelector.trans ⟨fun h => ⟨e, rfl, h⟩, ?_⟩
    rintro ⟨_, ⟨⟩, h⟩
    exact h

theorem upFrom_nextElement_subset {x : Element} (h : x ∈ t.upFrom (nextElement t s e)) :
    x ∈ e :: t.ancestors e := by
  rw [nextElement] at h
  split at h
  · exact h
  · rw [upFrom_parentElement] at h
    exact mem_cons_of_mem e h

/-! ## The variables of the loop -/

/-- What the variables say about an answer.  In a run `m` is the element that its first selector was
found at; the run can be at no lower element. -/
inductive Sound (t : Forest Element) (fulfils : CSSSelector Pseudo → Element → Prop) (answer : Prop) :
    FastState Element Pseudo → Prop
  | done (h : answer) (element : Option Element) (top : List (CSSSelector Pseudo))
      (topElement : Option Element) : Sound t fulfils answer ⟨[], element, top, topElement⟩
  | search {selector : List (CSSSelector Pseudo)} {element : Option Element} (hne : selector ≠ [])
      (h : answer ↔ ∃ a ∈ t.upFrom element, MatchesFrom t fulfils selector a)
      (topElement : Option Element) : Sound t fulfils answer ⟨selector, element, [], topElement⟩
  | first {selector top : List (CSSSelector Pseudo)} {element : Option Element} (hne : selector ≠ [])
      (htop : top ≠ [])
      (h : answer ↔ ∃ e, element = some e ∧ MatchesFrom t fulfils selector e) :
      Sound t fulfils answer ⟨selector, element, top, none⟩
  | run {selector top : List (CSSSelector Pseudo)} {element : Option Element} {m : Element}
      (hne : selector ≠ []) (htop : top ≠ []) (h : answer ↔ ∃ a ∈ m :: t.ancestors m, MatchesFrom t fulfils top a)
      (hexact : MatchesFrom t fulfils top m ↔
        ∃ e, element = some e ∧ MatchesFrom t fulfils selector e)
      (habove : ∀ a ∈ m :: t.ancestors m, MatchesFrom t fulfils top a →
        ∃ x ∈ t.upFrom element, MatchesFrom t fulfils selector x)
      (hplace : ∀ x ∈ t.upFrom element, x ∈ m :: t.ancestors m) :
      Sound t fulfils answer ⟨selector, element, top, some m⟩

/-- How far up the current search can still go. -/
def FastState.height (t : Forest Element) (state : FastState Element Pseudo) : ℕ :=
  match state.topChildOrSubselector, state.topChildOrSubselectorMatchElement with
  | _ :: _, some m => (t.ancestors m).length + 1
  | _, _ => (t.upFrom state.element).length

/-- The loop comes nearer to its end. -/
def FastState.Less (t : Forest Element) (state' state : FastState Element Pseudo) : Prop :=
  state'.height t < state.height t ∨
    state'.height t ≤ state.height t ∧ state'.selector.length < state.selector.length

/-- What an iteration leaves of a state. -/
def Steps (t : Forest Element) (fulfils : CSSSelector Pseudo → Element → Prop) (answer : Prop)
    (state : FastState Element Pseudo) : Option (FastState Element Pseudo) → Prop
  | none => ¬answer
  | some state' => Sound t fulfils answer state' ∧ state'.Less t state

theorem ne_descendant_of_tight (h : Tight s) : s.relation ≠ .descendant := by
  rcases h with h | h <;> rw [h] <;> nofun

variable {a : Element}

theorem mem_upFrom_nextElement (ha : a ∈ e :: t.ancestors e)
    (hx : x ∈ t.upFrom (nextElement t s a)) : x ∈ t.upFrom (nextElement t s e) := by
  rcases mem_cons.mp ha with rfl | ha
  · exact hx
  · rw [nextElement] at hx ⊢
    split at hx
    · rw [if_pos ‹_›]
      rcases mem_cons.mp hx with rfl | hx
      · exact mem_cons_of_mem e ha
      · exact mem_cons_of_mem e (mem_ancestors_trans ha hx)
    · rw [if_neg ‹_›, upFrom_parentElement]
      rw [upFrom_parentElement] at hx
      exact mem_ancestors_trans ha hx

theorem length_upFrom_nextElement (s : CSSSelector Pseudo) (e : Element) :
    (t.upFrom (nextElement t s e)).length ≤ (t.ancestors e).length + 1 := by
  rw [nextElement]
  split
  · exact le_rfl
  · rw [upFrom_parentElement]
    exact Nat.le_succ _

/-- A tight selector leaves what it is joined to at one element, and no place above it is without
one above that. -/
theorem above_of_tight (hne : history ≠ []) (htight : Tight s) (ha : a ∈ e :: t.ancestors e)
    (h : MatchesFrom t fulfils (s :: history) a) :
    ∃ x ∈ t.upFrom (nextElement t s e), MatchesFrom t fulfils history x := by
  obtain ⟨-, x, hx, hmatch⟩ := (matchesFrom_tight hne htight).mp h
  refine ⟨x, mem_upFrom_nextElement ha ?_, hmatch⟩
  rw [hx]
  exact mem_cons_self

theorem above_of_descendant (hne : history ≠ []) (hdescendant : s.relation = .descendant)
    (ha : a ∈ e :: t.ancestors e) (h : MatchesFrom t fulfils (s :: history) a) :
    ∃ x ∈ t.upFrom (nextElement t s e), MatchesFrom t fulfils history x := by
  obtain ⟨-, x, hx, hmatch⟩ := (matchesFrom_descendant hne hdescendant).mp h
  exact ⟨x, mem_upFrom_nextElement ha hx, hmatch⟩

section Step

variable {answer : Prop}

/-- A selector that is found in a search starts a run, or the search for the next one. -/
theorem Sound.advance_search (hrelation : s.relation = .descendant ∨ Tight s)
    {element topElement : Option Element} (he : e ∈ t.upFrom element) (hfound : fulfils s e)
    (h : answer ↔ ∃ a ∈ e :: t.ancestors e, MatchesFrom t fulfils (s :: history) a) :
    Sound t fulfils answer
        (t.fastAdvance s history e ⟨s :: history, element, [], topElement⟩) ∧
      (t.fastAdvance s history e ⟨s :: history, element, [], topElement⟩).Less t
        ⟨s :: history, element, [], topElement⟩ := by
  have hheight := length_upFrom_le he
  have hnext := length_upFrom_nextElement (t := t) s e
  rcases hrelation with hdescendant | htight
  · have hstate : t.fastAdvance s history e ⟨s :: history, element, [], topElement⟩ =
        ⟨history, nextElement t s e, [], topElement⟩ := by
      simp [fastAdvance, nextElement, hdescendant]
    rw [hstate]
    refine ⟨?_, .inr ⟨hnext.trans hheight, Nat.lt_succ_self _⟩⟩
    by_cases hne : history = []
    · subst hne
      exact .done (h.mpr ⟨e, mem_cons_self, matches_nil_iff.mpr hfound⟩) _ _ _
    · refine .search hne (h.trans ⟨?_, fun hx => ?_⟩) topElement
      · rintro ⟨a, ha, hmatch⟩
        exact above_of_descendant hne hdescendant ha hmatch
      · exact ⟨e, mem_cons_self, (matchesFrom_descendant hne hdescendant).mpr ⟨hfound, hx⟩⟩
  · have hstate : t.fastAdvance s history e ⟨s :: history, element, [], topElement⟩ =
        ⟨history, nextElement t s e, s :: history, some e⟩ := by
      simp [fastAdvance, nextElement, ne_descendant_of_tight htight]
    rw [hstate]
    refine ⟨?_, .inr ⟨hheight, Nat.lt_succ_self _⟩⟩
    by_cases hne : history = []
    · subst hne
      exact .done (h.mpr ⟨e, mem_cons_self, matches_nil_iff.mpr hfound⟩) _ _ _
    · refine .run hne nofun h ?_ (fun a ha => above_of_tight hne htight ha)
        fun x hx => upFrom_nextElement_subset hx
      rw [matchesFrom_tight hne htight]
      exact and_iff_right hfound

variable {top : List (CSSSelector Pseudo)} {check : Element → Bool}
  {state' : FastState Element Pseudo}

/-- In the run that starts with the rightmost selector. -/
theorem Sound.advance_first (hrelation : s.relation = .descendant ∨ Tight s) (htop : top ≠ [])
    (hfound : fulfils s e)
    (h : answer ↔ MatchesFrom t fulfils (s :: history) e) :
    Sound t fulfils answer (t.fastAdvance s history e ⟨s :: history, some e, top, none⟩) ∧
      (t.fastAdvance s history e ⟨s :: history, some e, top, none⟩).Less t
        ⟨s :: history, some e, top, none⟩ := by
  obtain ⟨top, tops, rfl⟩ := exists_cons_of_ne_nil htop
  have hnext := length_upFrom_nextElement (t := t) s e
  rcases hrelation with hdescendant | htight
  · have hstate : t.fastAdvance s history e ⟨s :: history, some e, top :: tops, none⟩ =
        ⟨history, nextElement t s e, [], none⟩ := by
      simp [fastAdvance, nextElement, hdescendant]
    rw [hstate]
    refine ⟨?_, .inr ⟨hnext, Nat.lt_succ_self _⟩⟩
    by_cases hne : history = []
    · subst hne
      exact .done (h.mpr (matches_nil_iff.mpr hfound)) _ _ _
    · refine .search hne (h.trans ?_) none
      rw [matchesFrom_descendant hne hdescendant]
      exact and_iff_right hfound
  · have hstate : t.fastAdvance s history e ⟨s :: history, some e, top :: tops, none⟩ =
        ⟨history, nextElement t s e, top :: tops, none⟩ := by
      simp [fastAdvance, nextElement, ne_descendant_of_tight htight]
    rw [hstate]
    refine ⟨?_, .inr ⟨hnext, Nat.lt_succ_self _⟩⟩
    by_cases hne : history = []
    · subst hne
      exact .done (h.mpr (matches_nil_iff.mpr hfound)) _ _ _
    · refine .first hne nofun (h.trans ?_)
      rw [matchesFrom_tight hne htight]
      exact and_iff_right hfound

/-- In a run that starts at another selector. -/
theorem Sound.advance_run (hrelation : s.relation = .descendant ∨ Tight s) (htop : top ≠ [])
    (hfound : fulfils s e)
    (h : answer ↔ ∃ a ∈ m :: t.ancestors m, MatchesFrom t fulfils top a)
    (hexact : MatchesFrom t fulfils top m ↔ MatchesFrom t fulfils (s :: history) e)
    (habove : ∀ a ∈ m :: t.ancestors m, MatchesFrom t fulfils top a →
      ∃ x ∈ e :: t.ancestors e, MatchesFrom t fulfils (s :: history) x)
    (hplace : ∀ x ∈ e :: t.ancestors e, x ∈ m :: t.ancestors m) :
    Sound t fulfils answer (t.fastAdvance s history e ⟨s :: history, some e, top, some m⟩) ∧
      (t.fastAdvance s history e ⟨s :: history, some e, top, some m⟩).Less t
        ⟨s :: history, some e, top, some m⟩ := by
  obtain ⟨top, tops, rfl⟩ := exists_cons_of_ne_nil htop
  have hdone : history = [] → answer := by
    rintro rfl
    exact h.mpr ⟨m, mem_cons_self, hexact.mpr (matches_nil_iff.mpr hfound)⟩
  have hlower : (t.ancestors e).length + 1 ≤ (t.ancestors m).length + 1 :=
    @length_upFrom_le _ t e (some m) (hplace e mem_cons_self)
  have hnext := length_upFrom_nextElement (t := t) s e
  rcases hrelation with hdescendant | htight
  · have hstate : t.fastAdvance s history e ⟨s :: history, some e, top :: tops, some m⟩ =
        ⟨history, nextElement t s e, [], some m⟩ := by
      simp [fastAdvance, nextElement, hdescendant]
    rw [hstate]
    refine ⟨?_, .inr ⟨hnext.trans hlower, Nat.lt_succ_self _⟩⟩
    by_cases hne : history = []
    · subst hne
      exact .done (hdone rfl) _ _ _
    · refine .search hne ⟨fun hanswer => ?_, fun hx => ?_⟩ (some m)
      · obtain ⟨a, ha, hmatch⟩ := h.mp hanswer
        obtain ⟨x, hx, hmatch⟩ := habove a ha hmatch
        exact above_of_descendant hne hdescendant hx hmatch
      · exact h.mpr ⟨m, mem_cons_self,
          hexact.mpr ((matchesFrom_descendant hne hdescendant).mpr ⟨hfound, hx⟩)⟩
  · have hstate : t.fastAdvance s history e ⟨s :: history, some e, top :: tops, some m⟩ =
        ⟨history, nextElement t s e, top :: tops, some m⟩ := by
      simp [fastAdvance, nextElement, ne_descendant_of_tight htight]
    rw [hstate]
    refine ⟨?_, .inr ⟨le_rfl, Nat.lt_succ_self _⟩⟩
    by_cases hne : history = []
    · subst hne
      exact .done (hdone rfl) _ _ _
    · refine .run hne nofun h (hexact.trans ?_) (fun a ha hmatch => ?_)
        fun x hx => hplace x (upFrom_nextElement_subset hx)
      · rw [matchesFrom_tight hne htight]
        exact and_iff_right hfound
      · obtain ⟨x, hx, hmatch⟩ := habove a ha hmatch
        exact above_of_tight hne htight hx hmatch

/-- The loop of one selector, in a search. -/
theorem search_cases (hcheck : ∀ e, check e = true ↔ fulfils s e)
    {state : FastState Element Pseudo} (htop : state.topChildOrSubselector = [])
    (element : Option Element) :
    (t.fastCheckSingleSelector check s history state (t.upFrom element) = none ∧
        ∀ a ∈ t.upFrom element, ¬fulfils s a) ∨
      ∃ e ∈ t.upFrom element, fulfils s e ∧
        t.fastCheckSingleSelector check s history state (t.upFrom element) =
          some (t.fastAdvance s history e state) ∧
        ∀ a ∈ t.upFrom element, fulfils s a → a ∈ e :: t.ancestors e := by
  cases element with
  | none => exact .inl ⟨rfl, nofun⟩
  | some e =>
    induction e using t.induction_parent with
    | root e h =>
      rw [upFrom, ancestors_of_none h, fastCheckSingleSelector]
      by_cases hfound : check e = true
      · rw [if_pos hfound]
        refine .inr ⟨e, mem_cons_self, (hcheck e).mp hfound, rfl, fun a ha _ => ?_⟩
        rw [mem_singleton.mp ha]
        exact mem_cons_self
      · rw [if_neg hfound, htop]
        refine .inl ⟨rfl, fun a ha hmatch => ?_⟩
        rw [mem_singleton.mp ha, ← hcheck] at hmatch
        exact hfound hmatch
    | below e p h ih =>
      rw [upFrom] at ih ⊢
      rw [ancestors_of_some h, fastCheckSingleSelector]
      by_cases hfound : check e = true
      · rw [if_pos hfound]
        refine .inr ⟨e, mem_cons_self, (hcheck e).mp hfound, rfl, fun a ha _ => ?_⟩
        rw [ancestors_of_some h]
        exact ha
      · rw [if_neg hfound, htop]
        rcases ih with ⟨heq, hnone⟩ | ⟨e', he', hfound', heq, hlowest⟩
        · exact .inl ⟨heq, forall_mem_cons.mpr
            ⟨fun hmatch => hfound ((hcheck e).mpr hmatch), hnone⟩⟩
        · refine .inr ⟨e', mem_cons_of_mem e he', hfound', heq, fun a ha hmatch => ?_⟩
          rcases mem_cons.mp ha with rfl | ha
          · exact absurd ((hcheck a).mpr hmatch) hfound
          · exact hlowest a ha hmatch

/-- An iteration keeps what the variables say, or there is no match. -/
theorem Sound.step (hcheck : ∀ e, check e = true ↔ fulfils s e)
    (hrelation : s.relation = .descendant ∨ Tight s)
    (h : Sound t fulfils answer state) (hselector : state.selector = s :: history) :
    Steps t fulfils answer state
      (t.fastCheckSingleSelector check s history state (t.upFrom state.element)) := by
  cases h with
  | done => cases hselector
  | @search selector element hne h topElement =>
    obtain rfl : selector = s :: history := hselector
    have htop : (⟨s :: history, element, [], topElement⟩ :
      FastState Element Pseudo).topChildOrSubselector = [] := rfl
    rcases @search_cases _ _ t _ _ history _ hcheck _ htop element with
      ⟨heq, hnone⟩ | ⟨e, he, hfound, heq, hlowest⟩
    · rw [heq]
      intro hanswer
      obtain ⟨a, ha, hmatch⟩ := h.mp hanswer
      exact hnone a ha hmatch.head
    · rw [heq]
      refine Sound.advance_search hrelation he hfound (h.trans ⟨?_, ?_⟩)
      · rintro ⟨a, ha, hmatch⟩
        exact ⟨a, hlowest a ha hmatch.head, hmatch⟩
      · rintro ⟨a, ha, hmatch⟩
        rcases mem_cons.mp ha with rfl | ha
        · exact ⟨a, he, hmatch⟩
        · exact ⟨a, mem_upFrom_trans he ha, hmatch⟩
  | @first selector top element hne htop h =>
    obtain rfl : selector = s :: history := hselector
    cases element with
    | none =>
      intro hanswer
      obtain ⟨e, he, -⟩ := h.mp hanswer
      cases he
    | some e =>
      have hat : answer ↔ MatchesFrom t fulfils (s :: history) e := by simpa using h
      rw [upFrom, fastCheckSingleSelector]
      by_cases hfound : check e = true
      · rw [if_pos hfound]
        exact Sound.advance_first hrelation htop ((hcheck e).mp hfound) hat
      · rw [if_neg hfound, if_pos htop]
        exact fun hanswer => hfound ((hcheck e).mpr (hat.mp hanswer).head)
  | @run selector top element m hne htop h hexact habove hplace =>
    obtain rfl : selector = s :: history := hselector
    cases element with
    | none =>
      intro hanswer
      obtain ⟨a, ha, hmatch⟩ := h.mp hanswer
      obtain ⟨x, hx, -⟩ := habove a ha hmatch
      cases hx
    | some e =>
      have hat : MatchesFrom t fulfils top m ↔ MatchesFrom t fulfils (s :: history) e := by
        simpa using hexact
      rw [upFrom, fastCheckSingleSelector]
      by_cases hfound : check e = true
      · rw [if_pos hfound]
        exact Sound.advance_run hrelation htop ((hcheck e).mp hfound) h hat habove hplace
      · rw [if_neg hfound, if_pos htop]
        have hnot : ¬MatchesFrom t fulfils top m :=
          fun hmatch => hfound ((hcheck e).mpr (hat.mp hmatch).head)
        refine ⟨.search htop (h.trans ⟨?_, ?_⟩) (some m), .inl ?_⟩
        · rintro ⟨a, ha, hmatch⟩
          rw [upFrom_parentElement]
          rcases mem_cons.mp ha with rfl | ha
          · exact absurd hmatch hnot
          · exact ⟨a, ha, hmatch⟩
        · rintro ⟨a, ha, hmatch⟩
          rw [upFrom_parentElement] at ha
          exact ⟨a, mem_cons_of_mem m ha, hmatch⟩
        · obtain ⟨top, tops, rfl⟩ := exists_cons_of_ne_nil htop
          change (t.upFrom (t.parentElement m)).length < (t.ancestors m).length + 1
          rw [upFrom_parentElement]
          exact Nat.lt_succ_self _

/-! ## The loop -/

/-- The lists of a state are ends of the whole selector. -/
structure FastState.Within (state : FastState Element Pseudo)
    (whole : List (CSSSelector Pseudo)) : Prop where
  selector : state.selector <:+ whole
  top : state.topChildOrSubselector <:+ whole

variable {state : FastState Element Pseudo} {whole : List (CSSSelector Pseudo)}

theorem FastState.Within.advance (h : state.Within whole)
    (hselector : state.selector = s :: history) (e : Element) :
    (t.fastAdvance s history e state).Within whole := by
  have hhere := h.selector
  rw [hselector] at hhere
  refine ⟨(suffix_cons s history).trans hhere, ?_⟩
  rw [fastAdvance]
  dsimp only
  split
  · exact nil_suffix
  · split
    · exact hhere
    · exact h.top

theorem FastState.Within.single (h : state.Within whole) (hselector : state.selector = s :: history)
    (hstep : t.fastCheckSingleSelector check s history state elements = some state') :
    state'.Within whole := by
  induction elements with
  | nil => cases hstep
  | cons e elements ih =>
    rw [fastCheckSingleSelector] at hstep
    split at hstep
    · cases hstep
      exact h.advance hselector e
    · split at hstep
      · obtain ⟨m, -, rfl⟩ := Option.map_eq_some_iff.mp hstep
        exact ⟨h.top, nil_suffix⟩
      · exact ih hstep

/-- A bound for the iterations that are left. -/
def FastState.measure (t : Forest Element) (whole : List (CSSSelector Pseudo))
    (state : FastState Element Pseudo) : ℕ :=
  state.height t * (whole.length + 1) + state.selector.length

theorem FastState.Less.measure_lt (h : state'.Less t state)
    (hwithin : state'.Within whole) : state'.measure t whole < state.measure t whole := by
  have hlength := hwithin.selector.length_le
  rw [FastState.measure, FastState.measure]
  rcases h with hlt | ⟨hle, hlt⟩
  · have hmul := Nat.mul_le_mul_right (whole.length + 1) hlt
    rw [Nat.succ_mul] at hmul
    omega
  · have hmul := Nat.mul_le_mul_right (whole.length + 1) hle
    omega

/-- The selectors that the loop takes, with what its checks ask. -/
structure FastCheckable (t : Forest Element) (fulfils : CSSSelector Pseudo → Element → Prop)
    (s : CSSSelector Pseudo) : Prop where
  known : hasFastCheck s = true
  relation : s.relation = .descendant ∨ Tight s
  check : ∀ e, (fastCheckValue (t.data e) s && tagMatches (t.data e) s) = true ↔ fulfils s e

/-- The loop ends, and it returns the answer. -/
theorem fastLoop_spec (hwhole : ∀ s ∈ whole, FastCheckable t fulfils s)
    (h : Sound t fulfils answer state) (hwithin : state.Within whole) :
    ∃ n accepted, (∀ fuel, n ≤ fuel → t.fastLoop fuel state = some accepted) ∧
      (accepted = true ↔ answer) := by
  induction hn : state.measure t whole using Nat.strong_induction_on generalizing state with
  | _ n ih =>
    cases hselector : state.selector with
    | nil =>
      have hanswer : answer := by
        cases h with
        | done h => exact h
        | search hne => exact absurd hselector hne
        | first hne => exact absurd hselector hne
        | run hne => exact absurd hselector hne
      refine ⟨1, true, fun fuel hfuel => ?_, iff_of_true rfl hanswer⟩
      obtain ⟨fuel, rfl⟩ := Nat.exists_eq_add_of_le' hfuel
      rw [fastLoop, hselector]
    | cons s history =>
      have hs := hwhole s (hwithin.selector.mem (hselector ▸ mem_cons_self))
      have hsteps := h.step hs.check hs.relation hselector
      have hiteration : t.fastStep s history state = t.fastCheckSingleSelector
          (fun e => fastCheckValue (t.data e) s && tagMatches (t.data e) s) s history state
          (t.upFrom state.element) := by
        rw [fastStep, if_pos hs.known]
      cases hstep : t.fastStep s history state with
      | none =>
        rw [← hiteration, hstep] at hsteps
        refine ⟨1, false, fun fuel hfuel => ?_, iff_of_false (by simp) hsteps⟩
        obtain ⟨fuel, rfl⟩ := Nat.exists_eq_add_of_le' hfuel
        rw [fastLoop, hselector]
        dsimp only
        rw [hstep]
      | some state' =>
        rw [← hiteration, hstep] at hsteps
        obtain ⟨hsound, hless⟩ := hsteps
        have hwithin' := hwithin.single hselector (hiteration ▸ hstep)
        obtain ⟨n', accepted, hloop, hiff⟩ :=
          ih _ (hn ▸ hless.measure_lt hwithin') hsound hwithin' rfl
        refine ⟨n' + 1, accepted, fun fuel hfuel => ?_, hiff⟩
        obtain ⟨fuel, rfl⟩ := Nat.exists_eq_add_of_le' (Nat.le_trans (Nat.succ_le_succ n'.zero_le) hfuel)
        rw [fastLoop, hselector]
        dsimp only
        rw [hstep]
        exact hloop fuel (by omega)

end Step

/-- The switch for the rightmost selector is that of the others. -/
theorem fastCheckRightmostSelector_eq (h : hasFastCheck s = true)
    (commonPseudoClassMatches : Pseudo → Bool) (data : ElementData) :
    fastCheckRightmostSelector commonPseudoClassMatches data s =
      (fastCheckValue data s && tagMatches data s) := by
  obtain ⟨tag, m_match, relation⟩ := s
  cases m_match
  case matchPseudoClass => cases h
  all_goals exact Bool.and_comm _ _

/-- The fast path ends, and it accepts the elements that the selector matches. -/
theorem fastCheck_spec (commonPseudoClassMatches : Pseudo → Bool)
    (hselectors : ∀ s' ∈ s :: history, FastCheckable t fulfils s') (e : Element) :
    ∃ n accepted, (∀ fuel, n ≤ fuel →
        t.fastCheck commonPseudoClassMatches fuel s history e = some accepted) ∧
      (accepted = true ↔ Matches t fulfils s history e) := by
  obtain ⟨hs, hhistory⟩ := forall_mem_cons.mp hselectors
  have hrightmost : fastCheckRightmostSelector commonPseudoClassMatches (t.data e) s = true ↔
      fulfils s e := by
    rw [← hs.check e, fastCheckRightmostSelector_eq hs.known]
  by_cases hfound : fulfils s e
  · have hif : ∀ fuel, t.fastCheck commonPseudoClassMatches fuel s history e =
        t.fastCheckSelector fuel s history e := fun fuel => if_pos (hrightmost.mpr hfound)
    simp only [hif]
    refine fastLoop_spec hselectors ?_ ⟨suffix_cons s history, ?_⟩
    · by_cases hne : history = []
      · subst hne
        exact .done (matches_nil_iff.mpr hfound) _ _ _
      · rcases hs.relation with hdescendant | htight
        · simp only [hdescendant]
          refine .search hne ?_ none
          have hiff : MatchesFrom t fulfils (s :: history) e ↔ _ :=
            matchesFrom_descendant hne hdescendant
          rw [nextElement, hdescendant] at hiff
          exact hiff.trans (and_iff_right hfound)
        · have hor : s.relation = .child ∨ s.relation = .subSelector := htight
          rw [if_pos hor]
          refine .first hne (by simp) ?_
          exact (matchesFrom_tight hne htight).trans (and_iff_right hfound)
    · dsimp only
      split
      · exact suffix_refl _
      · exact nil_suffix
  · refine ⟨0, false, fun fuel _ => if_neg fun h => hfound (hrightmost.mp h), ?_⟩
    refine iff_of_false (by simp) fun hmatch => hfound ?_
    have hfrom : MatchesFrom t fulfils (s :: history) e := hmatch
    exact hfrom.head

/-! ## The recursion on the same selectors -/

section Agreement

variable {fulfils' : CSSSelector Pseudo → Element → Prop}

theorem Assigns.mono
    (h : ∀ s e, fulfils s e → fulfils' s e) (hassigns : Assigns t fulfils selectors elements) :
    Assigns t fulfils' selectors elements := by
  induction hassigns with
  | one hs => exact .one (h _ _ hs)
  | cons hs hrelated _ ih => exact .cons (h _ _ hs) hrelated ih

theorem Matches.mono
    (h : ∀ s e, fulfils s e → fulfils' s e) (hmatch : Matches t fulfils s history e) :
    Matches t fulfils' s history e :=
  hmatch.imp fun _ hassigns => hassigns.mono h

/-- An element has the attribute that a selector `[name]` asks for, whatever its value is. -/
def HasAttribute (t : Forest Element) (s : CSSSelector Pseudo) (e : Element) : Prop :=
  ∃ attr, s.m_match = .matchSet attr ∧ tagMatches (t.data e) s = true ∧
    ∃ a ∈ (t.data e).attributes, attributeNameMatches a attr = true

variable (checker : SelectorChecker Element Pseudo)

/-- A simple selector accepts an element, as the recursion checks it. -/
def SelectorChecker.accepts (t : Forest Element) (s : CSSSelector Pseudo) (e : Element) : Bool :=
  (checker.checkOneSelector t s (.initial e .visitedMatchDisabled) .noPseudo).1

/-- The same, with an attribute counted as set where its value is null. -/
def SelectorChecker.AcceptsNull (t : Forest Element) (s : CSSSelector Pseudo) (e : Element) :
    Prop :=
  checker.accepts t s e = true ∨ HasAttribute t s e

/-- The selectors of the fast path ask an element alone. -/
theorem checkOneSelector_eq (h : hasFastCheck s = true) (context : CheckingContext Element)
    (dynamicPseudo : PseudoId) :
    checker.checkOneSelector t s context dynamicPseudo =
      checkElement (checker.accepts t) s context dynamicPseudo := by
  rw [checkElement, accepts, checkOneSelector, checkOneSelector]
  dsimp only [CheckingContext.initial]
  by_cases htag : tagMatches (t.data context.element) s = true
  · simp only [htag]
    obtain ⟨tag, m_match, relation⟩ := s
    cases m_match
    case matchPseudoClass | matchPseudoElement | matchPagePseudoClass => cases h
    all_goals rfl
  · simp only [htag, Bool.not_false, if_true]

theorem checkAttribute_eq (data : ElementData) (m_match : Match Pseudo) (attr : QualifiedName) :
    checker.checkAttribute data m_match attr =
      anyAttributeMatches checker.foldCase data.attributes m_match attr
        (!checker.documentIsHTML || !htmlAttributeHasCaseInsensitiveValue attr) := by
  rw [checkAttribute]
  cases hattributes : data.attributes with
  | _ => rfl

theorem attributeValueMatches_exact (foldCase : UChar → UChar) (attr : QualifiedName)
    (text : UString) (value : AtomicString) :
    attributeValueMatches foldCase (.matchExact attr text : Match Pseudo) true value =
      (value == some text) := by
  cases value with
  | none => rfl
  | some value => exact Bool.beq_comm

theorem accepts_of_tag (h : tagMatches (t.data e) s = false) : checker.accepts t s e = false := by
  rw [accepts, checkOneSelector]
  simp only [CheckingContext.initial, h, Bool.not_false, if_true]

/-- The checks of the fast path are those of the recursion, but for the attributes of null value. -/
theorem fastCheckValue_iff (h : isFastCheckableMatch s = true) (e : Element) :
    (fastCheckValue (t.data e) s && tagMatches (t.data e) s) = true ↔
      checker.AcceptsNull t s e := by
  rw [AcceptsNull]
  cases htag : tagMatches (t.data e) s with
  | false =>
    rw [Bool.and_false, accepts_of_tag checker htag]
    refine iff_of_false (by simp) ?_
    rintro (h | ⟨attr, -, h, -⟩)
    · cases h
    · rw [htag] at h
      cases h
  | true =>
    rw [Bool.and_true, accepts, checkOneSelector]
    simp only [CheckingContext.initial, htag, Bool.not_true, Bool.false_eq_true, if_false]
    obtain ⟨tag, m_match, relation⟩ := s
    cases m_match with
    | matchNone => exact iff_of_true rfl (.inl rfl)
    | matchId | matchClass => exact (or_iff_left (by rintro ⟨attr, h, -⟩; cases h)).symm
    | matchExact attr value =>
      refine Iff.trans ?_ (or_iff_left (by rintro ⟨attr, h, -⟩; cases h)).symm
      have hcase : htmlAttributeHasCaseInsensitiveValue attr = false := by
        simpa [isFastCheckableMatch] using h
      simp only [fastCheckValue, checkExactAttribute, checkAttribute_eq, anyAttributeMatches, hcase,
        Bool.not_false, Bool.or_true, attributeValueMatches_exact, Option.isNone_some,
        Bool.false_or]
    | matchSet attr =>
      simp only [fastCheckValue, checkExactAttribute, checkAttribute_eq, anyAttributeMatches,
        Option.isNone_none, Bool.true_or, Bool.and_true, any_eq_true,
        Bool.and_eq_true]
      constructor
      · exact fun h => .inr ⟨attr, rfl, htag, h⟩
      · rintro (⟨a, ha, hname, -⟩ | ⟨attr', heq, -, h⟩)
        · exact ⟨a, ha, hname⟩
        · cases heq
          exact h
    | _ => cases h

theorem hasFastCheck_of_match (h : isFastCheckableMatch s = true) : hasFastCheck s = true := by
  obtain ⟨tag, m_match, relation⟩ := s
  cases m_match <;> first | rfl | cases h

theorem fastCheckable_of (hmatch : isFastCheckableMatch s = true)
    (hrelation : isFastCheckableRelation s.relation = true) :
    FastCheckable t (checker.AcceptsNull t) s where
  known := hasFastCheck_of_match hmatch
  relation := by
    rw [Tight]
    simpa [isFastCheckableRelation, or_assoc] using hrelation
  check := fastCheckValue_iff checker hmatch

/-- All selectors of a selector that the fast path takes, where the rightmost one is no pseudo
class. -/
theorem fastCheckable_of_selector (hfast : isFastCheckableSelector isCommon s history = true)
    (hsimple : ∀ pseudo, s.m_match ≠ .matchPseudoClass pseudo) :
    ∀ s' ∈ s :: history, isFastCheckableMatch s' = true ∧
      isFastCheckableRelation s'.relation = true := by
  rw [isFastCheckableSelector, isFastCheckableRightmostSelector, Bool.and_eq_true,
    Bool.and_eq_true] at hfast
  obtain ⟨⟨hrelation, hmatch⟩, hhistory⟩ := hfast
  refine forall_mem_cons.mpr ⟨⟨?_, hrelation⟩, fun s' hs' => ?_⟩
  · have hcommon : isCommonPseudoClassSelector isCommon s = false := by
      rw [isCommonPseudoClassSelector]
      split
      · exact absurd ‹_› (hsimple _)
      · rfl
    rwa [hcommon, Bool.or_false] at hmatch
  · have h := all_eq_true.mp hhistory s' hs'
    rw [Bool.and_eq_true] at h
    exact h.symm

variable [DecidableEq Element] (t)

/-- The fast path ends, it accepts an element exactly when the recursion does, and that is when the
simple selectors can be assigned. -/
def FastAgrees (commonPseudoClassMatches : Pseudo → Bool) (selector : CSSSelector Pseudo)
    (history : List (CSSSelector Pseudo)) (e : Element) : Prop :=
  let result := (t.checkSelector checker.toCheckerState (checker.checkOneSelector t) selector
    history (.initial e .visitedMatchDisabled) .noPseudo).1
  ∃ n accepted, (∀ fuel, n ≤ fuel →
      t.fastCheck commonPseudoClassMatches fuel selector history e = some accepted) ∧
    (accepted = true ↔ result = .selectorMatches) ∧
    (result = .selectorMatches ↔
      Matches t (fun s e => checker.accepts t s e = true) selector history e)

variable {t}

/-- The two agree exactly where neither an attribute of null value nor the root of a tree that `use`
clones is needed for an assignment. -/
theorem fastAgrees_iff (commonPseudoClassMatches isCommon : Pseudo → Bool)
    (hchecker : checker.pseudoStyle = .noPseudo)
    (hfast : isFastCheckableSelector isCommon s history = true)
    (hsimple : ∀ pseudo, s.m_match ≠ .matchPseudoClass pseudo) (e : Element) :
    FastAgrees t checker commonPseudoClassMatches s history e ↔
      (Matches t (checker.AcceptsNull t) s history e →
        Matches t (Fulfils (checker.accepts t) t) s history e) := by
  have hall := fastCheckable_of_selector hfast hsimple
  obtain ⟨n, accepted, hfuel, hiff⟩ := fastCheck_spec (t := t) commonPseudoClassMatches
    (fun s' hs' => fastCheckable_of (t := t) checker (hall s' hs').1 (hall s' hs').2) e
  have hshadow : ∀ s' ∈ s :: history, s'.relation ≠ .shadowDescendant := fun s' hs' heq => by
    have h := (hall s' hs').2
    rw [heq] at h
    cases h
  have hrecursion := (answersIn_checkSelector (t := t) checker.toCheckerState (checker.accepts t)
    hchecker (fun s' hs' => checkOneSelector_eq checker (hasFastCheck_of_match (hall s' hs').1))
    hshadow (.initial e .visitedMatchDisabled) rfl).1.matches_iff
  have hstrict : Matches t (Fulfils (checker.accepts t) t) s history e →
      Matches t (fun s e => checker.accepts t s e = true) s history e :=
    Matches.mono fun _ _ h => h.1
  have hnull : Matches t (fun s e => checker.accepts t s e = true) s history e →
      Matches t (checker.AcceptsNull t) s history e := Matches.mono fun _ _ h => .inl h
  constructor
  · rintro ⟨n', accepted', hfuel', haccepted, hassign⟩ h
    have heq : some accepted = some accepted' :=
      (hfuel (n + n') (by omega)).symm.trans (hfuel' (n + n') (by omega))
    cases heq
    exact hrecursion.mp (haccepted.mp (hiff.mpr h))
  · refine fun h => ⟨n, accepted, hfuel, ?_, ?_⟩
    · exact hiff.trans ⟨fun hn => hrecursion.mpr (h hn), fun hm => hnull (hstrict (hrecursion.mp hm))⟩
    · exact hrecursion.trans ⟨hstrict, fun hm => h (hnull hm)⟩

end Agreement

/-! ## An attribute of null value -/

/-- The checker of an HTML document. -/
def htmlChecker (Element : Type*) : SelectorChecker Element Empty where
  documentIsHTML := true
  isCollectingRulesOnly := false
  pseudoStyle := .noPseudo
  scrollbarForStyleResolve := false
  foldCase := id
  checkPseudo _ _ dynamicPseudo := (false, dynamicPseudo)

theorem fastAgrees_iff_child :
    let child : CSSSelector Empty := ⟨anyQName, .matchNone, .child⟩
    FastAgrees twoElements (htmlChecker Bool) (fun _ => false) child [child] true ↔
      (Matches twoElements ((htmlChecker Bool).AcceptsNull twoElements) child [child] true →
        Matches twoElements (Fulfils ((htmlChecker Bool).accepts twoElements) twoElements) child
          [child] true) :=
  fastAgrees_iff (htmlChecker Bool) (fun _ => false) (fun _ => false) rfl rfl nofun true

/-- An element whose attribute `a` is null. -/
def nullElement : Forest Unit where
  data _ := ⟨[ch 'p'], none, none, [], [⟨⟨none, [ch 'a'], none⟩, none⟩]⟩
  parentElement _ := none
  parentOrHostElement _ := none
  previousElementSibling _ := none
  shadowHost _ := none
  treeScope _ := 0
  isLink _ := false
  isSVGShadowRoot _ := false
  depth _ := 0
  index _ := 0
  depth_lt := nofun
  index_lt := nofun
  parentOrHostElement_of_parentElement := nofun
  parentElement_of_sibling := nofun
  parentOrHostElement_of_sibling := nofun
  shadowHost_above := nofun
  svgShadowRoot_alone := nofun

/-- The selector `[a]`. -/
def setSelector : CSSSelector Empty := ⟨anyQName, .matchSet ⟨none, [ch 'a'], none⟩, .descendant⟩

/-- The fast path accepts the element, and the recursion does not. -/
theorem not_fastAgrees_null : isFastCheckableSelector (fun _ => false) setSelector [] = true ∧
      ¬FastAgrees nullElement (htmlChecker Unit) (fun _ => false) setSelector [] () := by
  refine ⟨rfl, ?_⟩
  rintro ⟨n, accepted, hfuel, haccepted, -⟩
  have hfast : nullElement.fastCheck (fun _ => false) (n + 1) setSelector [] () = some true := rfl
  rw [hfuel (n + 1) n.le_succ] at hfast
  cases hfast
  have hresult := haccepted.mp rfl
  revert hresult
  decide

end WebKit.CSS
