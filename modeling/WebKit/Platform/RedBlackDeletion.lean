import WebKit.Platform.RedBlackInsertion

/-!
# Deletion from a red-black tree

`fixSibling_spec` is one round of `deleteFixup`, whose sibling is black, and `deleteFixup_spec` the
loop: below `x` a black node is missing.  `deleteNode_spec`: the keys of the tree lose the key of the
deleted node, although another node was unlinked.
-/

namespace WebKit

open List
namespace Platform

open Node (null node make)
open PODRedBlackTree

variable {α κ σ ρ : Type*} [LinearOrder ρ] {E : Element α} {V : View E κ σ ρ}

/-- The height of a node of this color, over children of height `n`. -/
def Color.above (color : Color) (n : ℕ) : ℕ :=
  match color with
  | .Red => n
  | .Black => n + 1

theorem Balanced.make_above {side : Side} {color : Color} {d : α} {near far : Node α} {n : ℕ}
    (hnear : Balanced near .Black n) (hfar : Balanced far .Black n) :
    Balanced (make side color d near far) color (color.above n) := by
  cases color with
  | Red => exact Balanced.makeRed _ _ hnear hfar
  | Black => exact Balanced.makeBlack _ _ hnear hfar

theorem Frame.descend_make (side : Side) (color : Color) (d : α) (near far : Node α) :
    Frame.descend side (make side color d near far) = some ⟨side, color, d, far⟩ := by
  cases side <;> rfl

/-- A subtree in the place of one that is higher by a black node: it is black, or it is red and will
be black. -/
def Deficient (x : Node α) (n : ℕ) : Prop :=
  Balanced x .Black n ∨ (x.isRed = true ∧ Balanced (x.setColor .Black) .Black (n + 1))

section FixSibling

variable {side : Side} {color cw cw' : Color} {dp dw d : α} {x near far a b t : Node α}

theorem fixSibling_black (hnear : near.isRed = false) (hfar : far.isRed = false) :
    fixSibling E x ⟨side, color, dp, make side cw dw near far⟩ =
      some (make side color dp x (make side .Red dw near far), true) := by
  cases side <;> simp [fixSibling, make, Node.child, Side.other, hnear, hfar, Frame.fill,
    Node.setColor]

theorem fixSibling_far (hfar : far.isRed = true)
    (h : rotate E side (make side .Black dp x (make side color dw near (far.setColor .Black))) =
      some t) :
    fixSibling E x ⟨side, color, dp, make side cw dw near far⟩ = some (t, false) := by
  cases side <;> simp_all [fixSibling, make, Node.child, Side.other, Frame.fill]

theorem fixSibling_near (hnear : near.isRed = true) (hfar : far.isRed = false)
    (h : rotate E side.other (make side .Red dw (near.setColor .Black) far) =
      some (make side cw' d a b))
    (h' : rotate E side (make side .Black dp x (make side color d a (b.setColor .Black))) =
      some t) :
    fixSibling E x ⟨side, color, dp, make side cw dw near far⟩ = some (t, false) := by
  cases side <;> simp_all [fixSibling, make, Node.child, Side.other, Frame.fill]

end FixSibling

namespace View

/-- What one round makes of the parent: the loop goes on from it, or the tree is right. -/
structure Fixed (V : View E κ σ ρ) (x : Node α) (xParent : Frame α) (n : ℕ) (t : Node α)
    (again : Bool) : Prop where
  keys : V.keys t = V.keys (xParent.fill x)
  summarised : V.Summarised t
  goesOn : again = true → Balanced (t.setColor .Black) .Black (n + 1) ∧
    t.isRed = (xParent.color == .Red) ∧ (xParent.color = .Black → t.setColor .Black = t)
  right : again = false → Balanced t xParent.color (xParent.color.above (n + 1))

variable {c color : Color} {n : ℕ} {d : α} {l r : Node α}

/-- Case 4: the parent comes down on the side of `x`, and its sibling takes its place. -/
theorem rotate_parent (side : Side) (color : Color) (dp dw : α) {x near far : Node α}
    (hx : Balanced x .Black n) (hnear : Balanced near c n) (hfar : Balanced far .Black (n + 1)) :
    ∃ t, rotate E side
        (Frame.fill ⟨side, .Black, dp, make side color dw near far⟩ x) = some t ∧
      Balanced t color (color.above (n + 1)) ∧
      V.keys t = side.join (V.keys x) (V.key dp)
        (side.join (V.keys near) (V.key dw) (V.keys far)) ∧
      (V.Summarised x → V.Summarised near → V.Summarised far → V.Summarised t) := by
  obtain ⟨dp', dw', hrotate, hp, hw, hsummarised⟩ :=
    rotate_make (V := V) side .Black dp x color dw near far
  refine ⟨_, hrotate, Balanced.make_above (Balanced.makeBlack _ _ hx hnear) hfar, ?_,
    fun hsx hsn hsf => (hsummarised hsx hsn hsf).2⟩
  rw [keys_rotated _ _ _ _ _ _ hp hw, View.keys, Node.keys_make, Node.keys_make]
  rfl

/-- One round of the loop, when the sibling is black. -/
theorem fixSibling_spec {x : Node α} (xParent : Frame α) (hx : Balanced x .Black n)
    (hw : Balanced xParent.sibling .Black (n + 1)) (hs : V.Summarised (xParent.fill x)) :
    ∃ t again, fixSibling E x xParent = some (t, again) ∧ Fixed V x xParent n t again := by
  obtain ⟨side, color, dp, sibling⟩ := xParent
  obtain ⟨hsx, hsw, hsummary⟩ := summarised_make.mp hs
  obtain ⟨dw, near, far, c, c', rfl, hnear, hfar⟩ := hw.exists_black side
  obtain ⟨hsnear, hsfar, hdw⟩ := summarised_make.mp hsw
  cases c' with
  | Red =>
    -- Case 4 alone
    obtain ⟨t, hrotate, hbalanced, hkeys, hsummarised⟩ :=
      rotate_parent (V := V) side color dp dw hx hnear hfar.setBlack_red
    refine ⟨t, false, fixSibling_far hfar.isRed hrotate, ?_, ?_, fun hagain => (by cases hagain),
      fun _ => hbalanced⟩
    · rw [hkeys, View.keys, View.keys, View.keys, View.keys, Frame.fill, Node.keys_make,
        Node.keys_make, Node.keys_setColor]
    · exact hsummarised hsx hsnear (summarised_setColor.mpr hsfar)
  | Black =>
    cases c with
    | Black =>
      -- Case 2: the sibling becomes red
      refine ⟨_, true, fixSibling_black hnear.isRed hfar.isRed, ?_, ?_, fun _ => ⟨?_, ?_, ?_⟩,
        fun hagain => (by cases hagain)⟩
      · rw [View.keys, View.keys, Frame.fill, Node.keys_make, Node.keys_make, Node.keys_make,
          Node.keys_make]
      · refine summarised_make.mpr ⟨hsx, summarised_make.mpr ⟨hsnear, hsfar, hdw⟩, ?_⟩
        rw [Node.keys_make] at hsummary ⊢
        exact hsummary
      · rw [Node.setColor_make]
        exact Balanced.makeBlack _ _ hx (Balanced.makeRed _ _ hnear hfar)
      · exact Node.isRed_make _ _ _ _ _
      · intro hcolor
        rw [Node.setColor_make]
        exact congrArg (fun c => make side c dp x _) hcolor.symm
    | Red =>
      -- Case 3: the near child comes up first
      have hred := hnear.isRed
      obtain ⟨dn, a, b, rfl, ha, hb⟩ := hnear.exists_red side
      obtain ⟨hsa, hsb, -⟩ := summarised_make.mp hsnear
      obtain ⟨dw', dn', hinner, hkw, hkn, hsinner⟩ :=
        rotate_make (V := V) side.other .Red dw far .Black dn b a
      rw [Node.make_other, Node.make_other, Node.make_other, Node.make_other,
        ← Node.setColor_make .Black side .Red] at hinner
      have hkeys' := keys_rotated (V := V) side.other .Red .Black far b a hkw hkn
      rw [Node.make_other, Node.make_other, Node.make_other, Node.make_other] at hkeys'
      obtain ⟨t, hrotate, hbalanced, hkeys, hsummarised⟩ :=
        rotate_parent (V := V) side color dp dn' hx ha
          (Balanced.makeRed side dw' hb hfar).setBlack_red
      refine ⟨t, false, fixSibling_near hred hfar.isRed hinner hrotate, ?_, ?_,
        fun hagain => (by cases hagain), fun _ => hbalanced⟩
      · have hjoined : side.join (V.keys a) (V.key dn')
            (V.keys ((make side .Red dw' b far).setColor .Black)) =
              V.keys (make side .Black dw (make side .Red dn a b) far) := by
          rw [View.keys, View.keys, Node.keys_make, Node.keys_make, Node.keys_make,
            Node.keys_make] at hkeys'
          rw [View.keys, View.keys, View.keys, Node.keys_setColor, Node.keys_make, Node.keys_make,
            Node.keys_make]
          exact hkeys'
        rw [hkeys, hjoined]
        exact (Node.keys_make _ _ _ _ _ _).symm
      · refine hsummarised hsx hsa (summarised_setColor.mpr ?_)
        have hlower := (hsinner hsfar hsb hsa).1
        rw [Node.make_other] at hlower
        exact hlower

/-- The result is a balanced tree with these keys. -/
def Repaired (V : View E κ σ ρ) (result : Option (Node α)) (keys : List κ) : Prop :=
  ∃ root n, result = some root ∧ Balanced root .Black n ∧ V.Summarised root ∧ V.keys root = keys

section Places

variable {path : Path α} {x : Node α} {keys : List κ}

theorem Repaired.setBlack (h : Repaired V (some x) keys) :
    Repaired V (some (x.setColor .Black)) keys := by
  obtain ⟨_, n, heq, hx, hsx, hkeys⟩ := h
  cases heq
  obtain ⟨n', hbalanced⟩ := hx.setBlack
  exact ⟨_, n', rfl, hbalanced, summarised_setColor.mpr hsx, (Node.keys_setColor _ _ _).trans hkeys⟩

theorem repaired_plug (hpath : BalancedPath path c n) (hx : Balanced x c n)
    (hsx : V.Summarised x) (hspath : V.SummarisedPath path (V.keys x)) :
    Repaired V (some (plug x path)) (V.around path (V.keys x)) := by
  obtain ⟨n', hbalanced⟩ := hpath.plug hx
  exact ⟨_, n', rfl, hbalanced, summarised_plug.mpr ⟨hsx, hspath⟩, keys_plug _ _ _⟩

theorem repaired_plug_setBlack (hpath : BalancedPath path c n)
    (hx : Balanced (x.setColor .Black) .Black n) (hsx : V.Summarised x)
    (hspath : V.SummarisedPath path (V.keys x)) :
    Repaired V (some (plug (x.setColor .Black) path)) (V.around path (V.keys x)) := by
  have hkeys : V.keys (x.setColor .Black) = V.keys x := Node.keys_setColor _ _ _
  rw [← hkeys] at hspath ⊢
  exact repaired_plug hpath.toBlack hx (summarised_setColor.mpr hsx) hspath

theorem around_fill (frame : Frame α) (path : Path α) (x : Node α) :
    V.around (frame :: path) (V.keys x) = V.around path (V.keys (frame.fill x)) := by
  rw [View.keys, View.keys, Frame.fill, Node.keys_make]
  exact Path.around_cons _ _ _ _

theorem summarised_fill {frame : Frame α} (hsx : V.Summarised x)
    (h : V.SummarisedPath (frame :: path) (V.keys x)) :
    V.Summarised (frame.fill x) ∧ V.SummarisedPath path (V.keys (frame.fill x)) := by
  refine ⟨summarised_make.mpr ⟨hsx, h.1, h.2.1⟩, ?_⟩
  rw [View.keys, Frame.fill, Node.keys_make]
  exact h.2.2

/-- What follows a round with a black sibling. -/
theorem repaired_fixSibling {xParent : Frame α} {next : Node α → Option (Node α)}
    (hx : Balanced x .Black n) (hw : Balanced xParent.sibling .Black (n + 1))
    (hpath : BalancedPath path xParent.color (xParent.color.above (n + 1)))
    (hfill : V.Summarised (xParent.fill x)) (hspath : V.SummarisedPath path (V.keys (xParent.fill x)))
    (hnext : ∀ t, Fixed V x xParent n t true → V.SummarisedPath path (V.keys t) →
      Repaired V (next t) (V.around path (V.keys t))) :
    Repaired V (match fixSibling E x xParent with
      | none => none
      | some (t, true) => next t
      | some (t, false) => some ((plug t path).setColor .Black))
      (V.around path (V.keys (xParent.fill x))) := by
  obtain ⟨t, again, hfix, hfixed⟩ := fixSibling_spec xParent hx hw hfill
  rw [← hfixed.keys] at hspath ⊢
  rw [hfix]
  cases again with
  | true => exact hnext t hfixed hspath
  | false => exact (repaired_plug hpath (hfixed.right rfl) hfixed.summarised hspath).setBlack

end Places

/-- The loop puts the missing black node back. -/
theorem deleteFixup_spec : ∀ {path : Path α} {x : Node α} {c : Color} {n : ℕ}, Deficient x n →
    BalancedPath path c (n + 1) → V.Summarised x → V.SummarisedPath path (V.keys x) →
      Repaired V (deleteFixup E x path) (V.around path (V.keys x))
  | [], x, c, n, hx, _, hsx, _ => by
    rcases hx with hx | ⟨-, hx⟩
    · exact (repaired_plug .nil hx hsx trivial).setBlack
    · exact repaired_plug_setBlack .nil hx hsx trivial
  | xParent :: path, x, c, n, hx, hpath, hsx, hspath => by
    rw [deleteFixup]
    rcases hx with hx | ⟨hred, hx⟩
    · have hblack : x.isRed = false := hx.isRed
      rw [if_neg (by rw [hblack]; exact Bool.false_ne_true), around_fill]
      obtain ⟨hfill, hsrest⟩ := summarised_fill hsx hspath
      -- the round that finds a black sibling
      have hround : Balanced xParent.sibling .Black (n + 1) →
          BalancedPath path xParent.color (xParent.color.above (n + 1)) →
            Repaired V (match fixSibling E x xParent with
              | none => none
              | some (t, true) => deleteFixup E t path
              | some (t, false) => some ((plug t path).setColor .Black))
              (V.around path (V.keys (xParent.fill x))) := by
        refine fun hw hrest =>
          repaired_fixSibling hx hw hrest hfill hsrest fun t hfixed hst => ?_
        obtain ⟨hset, hred, hsame⟩ := hfixed.goesOn rfl
        cases hcolor : xParent.color with
        | Red =>
          rw [hcolor] at hred hrest
          exact deleteFixup_spec (Or.inr ⟨hred, hset⟩) hrest hfixed.summarised hst
        | Black =>
          rw [hcolor] at hrest
          rw [hsame hcolor] at hset
          exact deleteFixup_spec (Or.inl hset) hrest hfixed.summarised hst
      cases hpath with
      | @red side dp w _ _ hsibling hrest =>
        have hsiblingBlack : ¬w.isRed = true := by
          rw [hsibling.isRed]
          decide
        rw [if_neg hsiblingBlack]
        exact hround hsibling hrest
      | @black side dp w _ _ c' _ hsibling hrest =>
        have hcolor := hsibling.isRed
        cases c' with
        | Black =>
          have hsiblingBlack : ¬w.isRed = true := by
            rw [hcolor]
            decide
          rw [if_neg hsiblingBlack]
          exact hround hsibling hrest
        | Red =>
          -- Case 1: after the rotation the sibling is black, and the parent is red
          rw [if_pos (show w.isRed = true from hcolor)]
          obtain ⟨dw, near, far, rfl, hnear, hfar⟩ := hsibling.exists_red side
          obtain ⟨hsnear, hsfar, -⟩ := summarised_make.mp hspath.1
          obtain ⟨dp', dw', hrotate, hkp, hkw, hsummarised⟩ :=
            rotate_make (V := V) side .Red dp x .Black dw near far
          obtain ⟨hslower, hstop⟩ := hsummarised hsx hsnear hsfar
          have hraised : Frame.fill ⟨side, .Red, dp, (make side .Red dw near far).setColor .Black⟩
              x = make side .Red dp x (make side .Black dw near far) := by
            rw [Node.setColor_make]
            rfl
          have hkeys : V.keys (Frame.fill ⟨side, .Black, dw', far⟩
              (Frame.fill ⟨side, .Red, dp', near⟩ x)) =
                V.keys (Frame.fill ⟨side, .Black, dp, make side .Red dw near far⟩ x) := by
            refine (keys_rotated side .Red .Black x near far hkp hkw).trans ?_
            rw [View.keys, View.keys, Frame.fill, Node.keys_make, Node.keys_make, Node.keys_make,
              Node.keys_make]
          rw [← hkeys] at hsrest ⊢
          rw [← around_fill]
          dsimp only
          rw [hraised, hrotate]
          dsimp only
          rw [Frame.descend_make, Node.child_make, Frame.descend_make]
          dsimp only
          refine repaired_fixSibling hx hnear (.black hfar hrest) hslower ?_ fun t hfixed hst =>
            repaired_plug_setBlack (.black (c := .Black) hfar hrest) (hfixed.goesOn rfl).1
              hfixed.summarised hst
          refine ⟨hsfar, (summarised_make.mp hstop).2.2, ?_⟩
          rw [View.keys, Frame.fill, Node.keys_make] at hsrest
          exact hsrest
    · -- a red node becomes black
      rw [if_pos hred]
      exact repaired_plug_setBlack hpath hx hsx hspath

/-! ## Unlinking -/

theorem plug_append (t : Node α) : ∀ path path' : Path α,
    plug t (path ++ path') = plug (plug t path) path'
  | [], _ => rfl
  | frame :: path, path' => plug_append (frame.fill t) path path'

theorem before_append (key : α → κ) : ∀ path path' : Path α,
    Path.before key (path ++ path') = Path.before key path' ++ Path.before key path
  | [], path' => (append_nil _).symm
  | ⟨.left, _, _, _⟩ :: path, path' => before_append key path path'
  | ⟨.right, _, d, sibling⟩ :: path, path' => by
    rw [cons_append, Path.before, Path.before, before_append key path path']
    simp only [append_assoc]

/-- The minimum has no left child, and only its ancestors' left children were taken. -/
theorem treeMinimum_spec (key : α → κ) : ∀ (t : Node α) (path : Path α), t ≠ null →
    ∃ cy dy yr inner, treeMinimum t path = (node cy dy null yr, inner ++ path) ∧
      plug (node cy dy null yr) inner = t ∧ Path.before key inner = []
  | null, _, h => absurd rfl h
  | node color d null r, path, _ => ⟨_, _, _, [], rfl, rfl, rfl⟩
  | node color d (node c' d' l' r') r, path, _ => by
    obtain ⟨cy, dy, yr, inner, hmin, hplug, hbefore⟩ := treeMinimum_spec key (node c' d' l' r')
      (⟨.left, color, d, r⟩ :: path) (fun h => by cases h)
    refine ⟨cy, dy, yr, inner ++ [⟨.left, color, d, r⟩], ?_, ?_, ?_⟩
    · rw [treeMinimum, hmin, append_assoc]
      rfl
    · rw [plug_append, hplug]
      rfl
    · rw [before_append, hbefore]
      rfl

theorem Balanced.eq_null {t : Node α} (h : Balanced t .Black 0) : t = null := by
  cases h
  rfl

theorem Balanced.deficient {t : Node α} (h : Balanced t c 0) : Deficient t 0 := by
  cases c with
  | Black => exact Or.inl h
  | Red => exact Or.inr ⟨h.isRed, h.setBlack_red⟩

theorem around_append (key : α → κ) (keys : List κ) : ∀ path path' : Path α,
    Path.around key (path ++ path') keys = Path.around key path' (Path.around key path keys)
  | [], path' => by
    rw [nil_append, Path.around, Path.around, Path.around, Path.before, Path.after,
      nil_append, append_nil]
  | frame :: path, path' => by
    rw [cons_append, Path.around_cons, Path.around_cons, around_append key _ path path']

theorem summarisedPath_append (keys : List κ) : ∀ path path' : Path α,
    V.SummarisedPath (path ++ path') keys ↔
      V.SummarisedPath path keys ∧ V.SummarisedPath path' (V.around path keys)
  | [], path' => by
    rw [View.around, Path.around, Path.after, append_nil]
    exact (and_iff_right trivial).symm
  | frame :: path, path' => by
    have ih := summarisedPath_append
      (frame.side.join keys (V.key frame.data) (frame.sibling.keys V.key)) path path'
    rw [View.around, Path.around_cons]
    exact (and_congr_right fun _ => and_congr_right fun _ => ih).trans
      ((and_congr_right fun _ => and_assoc.symm).trans and_assoc.symm)

/-- The top of a subtree that has ancestors in it is right when they are, whatever is below. -/
theorem hasTotal_plug : ∀ {path : Path α} {t : Node α} {keys : List κ},
    V.SummarisedPath path keys → path ≠ [] → V.HasTotal (plug t path) (V.around path keys)
  | [], _, _, _, h => absurd rfl h
  | [frame], t, keys, hpath, _ => by
    obtain ⟨side, color, d, sibling⟩ := frame
    rw [View.around, Path.around_cons, Path.around, Path.after, append_nil]
    cases side with
    | _ => exact hpath.2.1
  | frame :: frame' :: path, t, keys, hpath, _ => by
    have hrest : V.HasTotal (plug (frame.fill t) (frame' :: path)) _ :=
      hasTotal_plug hpath.2.2 (cons_ne_nil _ _)
    rw [View.around, Path.around_cons]
    exact hrest

/-- A node with one child at most is unlinked. -/
theorem unlink_spec {path : Path α} (hy : Balanced (node color d l r) c n)
    (hchild : l = null ∨ r = null) (hpath : BalancedPath path c n)
    (hx : V.Summarised (onlyChild (node color d l r)))
    (hspath : V.SummarisedPath path (V.keys (onlyChild (node color d l r)))) :
    Repaired V (unlink E color (onlyChild (node color d l r)) path)
      (V.around path (V.keys (onlyChild (node color d l r)))) := by
  cases hy with
  | red hl hr =>
    -- both children are null
    obtain ⟨rfl, rfl⟩ : l = null ∧ r = null := by
      rcases hchild with rfl | rfl
      · cases hl
        exact ⟨rfl, Balanced.eq_null hr⟩
      · cases hr
        exact ⟨Balanced.eq_null hl, rfl⟩
    cases hl
    exact repaired_plug hpath.toBlack Balanced.null hx hspath
  | @black _ _ _ cl cr n hl hr =>
    have hdeficient : Deficient (onlyChild (node .Black d l r)) 0 ∧ n = 0 := by
      rcases hchild with rfl | rfl
      · cases hl
        exact ⟨Balanced.deficient hr, rfl⟩
      · cases hr
        cases l with
        | null => exact ⟨Balanced.deficient Balanced.null, rfl⟩
        | node => exact ⟨Balanced.deficient hl, rfl⟩
    obtain ⟨hdeficient, rfl⟩ := hdeficient
    exact deleteFixup_spec hdeficient hpath hx hspath

theorem keys_onlyChild (hchild : l = null ∨ r = null) :
    V.keys (onlyChild (node color d l r)) = V.keys l ++ V.keys r := by
  rcases hchild with rfl | rfl
  · rfl
  · cases l with
    | null => rfl
    | node => exact (append_nil _).symm

theorem summarised_onlyChild (h : V.Summarised (node color d l r)) :
    V.Summarised (onlyChild (node color d l r)) := by
  cases l with
  | null => exact h.2.1
  | node => exact h.1

/-- The node at a place loses its key. -/
theorem deleteNode_spec {path : Path α}
    (hbalanced : Balanced (plug (node color d l r) path) .Black n)
    (hsummarised : V.Summarised (plug (node color d l r) path)) :
    Repaired V (deleteNode E (node color d l r) path)
      (V.around path (V.keys l ++ V.keys r)) := by
  obtain ⟨c, m, hz, hpath⟩ := Balanced.of_plug hbalanced
  obtain ⟨hsz, hspath⟩ := summarised_plug.mp hsummarised
  by_cases hchild : l = null ∨ r = null
  · -- the node itself is unlinked
    have hdelete : deleteNode E (node color d l r) path =
        unlink E color (onlyChild (node color d l r))
          (propagateUpdates E (onlyChild (node color d l r)) path) := by
      rcases hchild with rfl | rfl
      · rfl
      · cases l <;> rfl
    obtain ⟨hright, hsame⟩ := propagateUpdates_spec
      (Summarised.hasTotal (summarised_onlyChild hsz)) hspath
    rw [hdelete, ← keys_onlyChild hchild, ← hsame.around]
    exact unlink_spec hz hchild (hpath.of_shape hsame.shape) (summarised_onlyChild hsz) hright
  · -- the successor is unlinked, and its data is copied
    obtain ⟨hl, hr⟩ := not_or.mp hchild
    obtain ⟨cy, dy, yr, inner, hmin, hplug, hbefore⟩ := treeMinimum_spec V.key r [] hr
    rw [append_nil] at hmin
    have hy : plug (node cy dy null yr) (inner ++ ⟨.right, color, d, l⟩ :: path) =
        plug (node color d l r) path := by
      rw [plug_append, hplug]
      rfl
    obtain ⟨c', m', hbalancedY, hpathY⟩ := Balanced.of_plug (hy.symm ▸ hbalanced)
    obtain ⟨hsy, hspathY⟩ := summarised_plug.mp (hy.symm ▸ hsummarised)
    obtain ⟨hsinner, hszl, -, hspath⟩ := (summarisedPath_append _ _ _).mp hspathY
    have hsx := summarised_onlyChild hsy
    have hkeysR : V.around inner (V.keys (node cy dy null yr)) = V.keys r := by
      rw [← hplug]
      exact (keys_plug _ _ _).symm
    have hkeysX : V.keys (onlyChild (node cy dy null yr)) = V.keys yr := keys_onlyChild (Or.inl rfl)
    generalize hx : onlyChild (node cy dy null yr) = x at hsx hkeysX
    -- the right child of the node still counts the key of the successor, unless it is `x`
    have htotal : ∃ keys, V.HasTotal (plug x inner) keys ∧
        (inner = [] → keys = V.keys x) ∧ (inner ≠ [] → keys = V.keys r) := by
      by_cases hinner : inner = []
      · subst hinner
        exact ⟨V.keys x, Summarised.hasTotal hsx, fun _ => rfl, fun h => absurd rfl h⟩
      · refine ⟨V.keys r, ?_, fun h => absurd h hinner, fun _ => rfl⟩
        rw [← hkeysR]
        exact hasTotal_plug hsinner hinner
    obtain ⟨keys, htotal, hdirect, hstale⟩ := htotal
    obtain ⟨d', hframe, hkey, -, hright⟩ := updateFrame_spec htotal ⟨.right, color, dy, l⟩
    obtain ⟨hsouter, hsameOuter⟩ := propagateUpdates_spec (V := V)
      (t := Frame.fill ⟨.right, color, d', l⟩ (plug x inner)) (hright hszl) hspath
    generalize houter : propagateUpdates E (Frame.fill ⟨.right, color, d', l⟩ (plug x inner)) path =
      outer at hsouter hsameOuter
    have hdelete : deleteNode E (node color d l r) path = unlink E cy x
        (if inner.isEmpty then inner ++ ⟨.right, color, d', l⟩ :: outer
        else propagateUpdates E x (inner ++ ⟨.right, color, d', l⟩ :: outer)) := by
      cases l with
      | null => exact absurd rfl hl
      | node =>
        cases r with
        | null => exact absurd rfl hr
        | node =>
          rw [deleteNode, hmin]
          dsimp only
          rw [hx, hframe, houter]
    have hshape : BalancedPath (inner ++ ⟨.right, color, d', l⟩ :: outer) c' m' :=
      hpathY.of_shape (rel_append (forall₂_same.mpr fun _ _ => ⟨rfl, rfl, rfl⟩)
        (List.Forall₂.cons ⟨rfl, rfl, rfl⟩ hsameOuter.shape))
    have hsz : ∀ keys', keys = keys' → V.SummarisedPath (⟨.right, color, d', l⟩ :: outer) keys' := by
      rintro _ rfl
      refine ⟨hszl, ?_, ?_⟩
      · rw [hkey]
        exact hright hszl
      · rw [hkey]
        exact hsouter
    have haround : V.around (inner ++ ⟨.right, color, d', l⟩ :: outer) (V.keys x) =
        V.around path (V.keys l ++ V.keys r) := by
      have hkeys : V.keys r = V.key dy :: V.around inner (V.keys x) := by
        rw [← hkeysR, hkeysX, View.around, View.around, Path.around, Path.around, hbefore]
        rfl
      rw [View.around, around_append, Path.around_cons, hkey, hkeys]
      exact hsameOuter.around _
    rw [hdelete, ← haround]
    subst hx
    by_cases hinner : inner = []
    · subst hinner
      exact unlink_spec hbalancedY (Or.inl rfl) hshape hsx (hsz _ (hdirect rfl))
    · rw [if_neg (by rw [List.isEmpty_iff]; exact hinner)]
      have hs : V.SummarisedPath (inner ++ ⟨.right, color, d', l⟩ :: outer)
          (V.keys (node cy dy null yr)) :=
        (summarisedPath_append _ _ _).mpr ⟨hsinner, hsz _ ((hstale hinner).trans hkeysR.symm)⟩
      obtain ⟨hs', hsame⟩ := propagateUpdates_spec (Summarised.hasTotal hsx) hs
      rw [← hsame.around]
      exact unlink_spec hbalancedY (Or.inl rfl) (hshape.of_shape hsame.shape) hsx hs'

/-! ## Searching and removing -/

/-- The node that is found has an equal key. -/
theorem treeSearch_some (d : α) : ∀ (t : Node α) (path : Path α) {z : Node α} {path' : Path α},
    treeSearchFullComparisons E d t path = some (z, path') →
      plug z path' = plug t path ∧ ∃ color d' l r, z = node color d' l r ∧ V.key d' = V.key d
  | null, _, _, _, h => by cases h
  | node color e l r, path, z, path', h => by
    rw [treeSearchFullComparisons] at h
    split at h
    · exact treeSearch_some d l _ h
    · split at h
      · exact treeSearch_some d r _ h
      · split at h
        · rename_i hequal
          cases h
          exact ⟨rfl, color, e, l, r, rfl, (V.equal_iff.mp hequal).symm⟩
        · split at h
          · rename_i result hleft
            cases h
            exact treeSearch_some d l _ hleft
          · exact treeSearch_some d r _ h

/-- When none is found, no key is equal. -/
theorem treeSearch_none (d : α) : ∀ (t : Node α) (path : Path α),
    treeSearchFullComparisons E d t path = none → V.Sorted (V.keys t) → V.key d ∉ V.keys t
  | null, _, _, _ => not_mem_nil
  | node color e l r, path, h, hsorted => by
    rw [Sorted, keys, Node.keys, pairwise_append, pairwise_cons] at hsorted
    obtain ⟨hl, ⟨her, hr⟩, hlr⟩ := hsorted
    rw [treeSearchFullComparisons] at h
    intro hmem
    split at h
    · -- the keys from the root on have greater ranks
      rename_i hless
      have hlt := V.less_iff.mp hless
      rcases mem_append.mp hmem with hmem | hmem
      · exact treeSearch_none d l _ h hl hmem
      · rcases mem_cons.mp hmem with heq | hmem
        · exact absurd hlt (heq ▸ lt_irrefl _)
        · exact absurd (her _ hmem) (not_le_of_gt hlt)
    · split at h
      · rename_i hless
        have hlt := V.less_iff.mp hless
        rcases mem_append.mp hmem with hmem | hmem
        · exact absurd (hlr _ hmem _ mem_cons_self) (not_le_of_gt hlt)
        · rcases mem_cons.mp hmem with heq | hmem
          · exact absurd hlt (heq ▸ lt_irrefl _)
          · exact treeSearch_none d r _ h hr hmem
      · split at h
        · cases h
        · rename_i hequal
          split at h
          · cases h
          · rename_i hleft
            rcases mem_append.mp hmem with hmem | hmem
            · exact treeSearch_none d l _ hleft hl hmem
            · rcases mem_cons.mp hmem with heq | hmem
              · exact hequal (V.equal_iff.mpr heq)
              · exact treeSearch_none d r _ h hr hmem

end View

/-- A tree that the operations keep right. -/
structure IsRight (V : View E κ σ ρ) (root : Node α) : Prop where
  balanced : ∃ n, Balanced root .Black n
  summarised : V.Summarised root
  sorted : V.Sorted (V.keys root)

theorem isRight_null : IsRight V null := ⟨⟨0, Balanced.null⟩, trivial, List.Pairwise.nil⟩

theorem IsRight.add {root : Node α} (h : IsRight V root) (d : α) :
    ∃ root', add E root d = some root' ∧ IsRight V root' ∧
      (V.keys root').Perm (V.key d :: V.keys root) := by
  obtain ⟨n, hbalanced⟩ := h.balanced
  obtain ⟨root', n', hroot, hbalanced', hsummarised, hsorted, hperm⟩ :=
    View.insertNode_spec hbalanced h.summarised h.sorted d
  exact ⟨root', hroot, ⟨⟨n', hbalanced'⟩, hsummarised, hsorted⟩, hperm⟩

theorem IsRight.remove [DecidableEq κ] {root : Node α} (h : IsRight V root) (d : α) :
    ∃ root', remove E root d = some (root', decide (V.key d ∈ V.keys root)) ∧ IsRight V root' ∧
      (V.keys root').Perm ((V.keys root).erase (V.key d)) := by
  rw [PODRedBlackTree.remove]
  cases hsearch : treeSearchFullComparisons E d root [] with
  | none =>
    have hnot := View.treeSearch_none (V := V) d root [] hsearch h.sorted
    refine ⟨root, ?_, h, ?_⟩
    · rw [decide_eq_false hnot]
    · rw [erase_of_not_mem hnot]
  | some result =>
    obtain ⟨z, path⟩ := result
    obtain ⟨hplug, color, d', l, r, rfl, hkey⟩ := View.treeSearch_some (V := V) d root [] hsearch
    have hroot : plug (node color d' l r) path = root := hplug
    obtain ⟨n, hbalanced⟩ := h.balanced
    obtain ⟨root', n', hdelete, hbalanced', hsummarised, hkeys⟩ := View.deleteNode_spec (V := V)
      (hroot.symm ▸ hbalanced) (hroot.symm ▸ h.summarised)
    have hold : V.keys root = path.before V.key ++ V.keys l ++
        V.key d :: (V.keys r ++ path.after V.key) := by
      rw [← hroot, View.keys, keys_plug, Path.around, Node.keys, hkey]
      simp only [append_assoc]
      rfl
    have hnew : V.keys root' = path.before V.key ++ V.keys l ++ (V.keys r ++ path.after V.key) := by
      rw [hkeys, View.around, Path.around]
      simp only [append_assoc]
    refine ⟨root', ?_, ⟨⟨n', hbalanced'⟩, hsummarised, ?_⟩, ?_⟩
    · have hmem : V.key d ∈ V.keys root := by
        rw [hold]
        exact mem_append_right _ mem_cons_self
      dsimp only
      rw [hdelete, decide_eq_true hmem]
    · have hsorted := h.sorted
      rw [hold] at hsorted
      rw [hnew]
      exact hsorted.sublist ((List.Sublist.refl _).append (sublist_cons_self _ _))
    · rw [hold, hnew]
      have hmiddle : (path.before V.key ++ V.keys l ++
          V.key d :: (V.keys r ++ path.after V.key)).Perm
            (V.key d :: (path.before V.key ++ V.keys l ++ (V.keys r ++ path.after V.key))) :=
        perm_middle
      have hperm := hmiddle.erase (V.key d)
      rw [erase_cons_head] at hperm
      exact hperm.symm

end Platform
end WebKit
