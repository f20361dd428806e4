import WebKit.WTF.RedBlackLinks

/-!
# The loops of the tree on the links

The loops of `insert` and `removeFixup` go up along the parent pointers as the functions on trees go
up along the ancestors (`insertFixup_refines`, `removeFixup_refines`), where `linked key` says that
the nodes carry no augmentation.
-/

namespace WebKit

open List Platform.PODRedBlackTree
namespace WTF

open Platform (Color Side Node Frame Path Element View)
open Platform.Node (null node make)
open Platform.PODRedBlackTree (plug)

variable {N κ : Type*} [LinearOrder κ] [DecidableEq N]

/-- Nodes with keys and without an augmentation. -/
def linked (key : N → κ) : Element N where
  less a b := decide (key a < key b)
  equal a b := decide (a = b)
  updateNode d _ _ := (d, false)

def linkedView (key : N → κ) : View (linked key) N Unit κ where
  key := id
  rank := key
  summary _ := ()
  total _ := ()
  less_iff := decide_eq_true_iff
  equal_iff := decide_eq_true_iff
  total_congr _ _ _ := rfl
  key_update := rfl
  summary_update _ _ := rfl
  unchanged _ := rfl

variable {key : N → κ}

@[simp] theorem updateNode_linked (t : Node N) : updateNode (linked key) t = (t, false) := by
  cases t <;> rfl

theorem rotate_linked (side : Side) (cx cy : Color) (x y : N) (a b c : Node N) :
    Platform.PODRedBlackTree.rotate (linked key) side (make side cx x a (make side cy y b c)) =
      some (make side cy y (make side cx x a b) c) := by
  cases side <;> rfl

namespace RedBlackTree

variable {T T' : RedBlackTree N} {path : Path N}

/-! ## Reading around a place -/

/-- The fields of a node in the tree. -/
structure Cell (T : RedBlackTree N) (side : Side) (c : Color) (n : N) (near far : Node N)
    (path : Path N) : Prop where
  parent : T.parent n = parentOf path
  color : T.color n = c
  child : T.child side n = pointer near
  other : T.child side.other n = pointer far

variable {c gc pc cw : Color} {n g p w : N} {near far t a b x : Node N} {side s : Side}
  {frame : Frame N} {xParent : Option N}

omit [DecidableEq N] in
theorem Represents.cell (h : T.Represents (plug (make side c n near far) path)) :
    T.Cell side c n near far path := by
  obtain ⟨hn, -, -⟩ := represents_plug.mp h
  obtain ⟨hparent, hcolor, hchild, hother, -, -⟩ := subtree_make.mp hn
  exact ⟨hparent, hcolor, hchild, hother⟩

variable (h : T.Represents (plug t (frame :: path)))

include h

omit [DecidableEq N] in
theorem Represents.cell_frame :
    T.Cell frame.side frame.color frame.data t frame.sibling path := by
  have hfill : T.Represents (plug (frame.fill t) path) := h
  exact hfill.cell

theorem Represents.setColor_frame (c : Color) :
    (T.setColor frame.data c).Represents (plug t ({ frame with color := c } :: path)) := by
  have hfill : T.Represents (plug (frame.fill t) path) := h
  exact hfill.setColor_make c

omit h in
theorem Represents.rotate_frame {cx : Color} {x : N} {c : Node N}
    (h : T.Represents (plug a (⟨side, cx, x, make side cy y b c⟩ :: path))) :
    ∃ T', T.rotate side x = some T' ∧
      T'.Represents (plug (make side cy y (make side cx x a b) c) path) := by
  have hfill : T.Represents (plug (make side cx x a (make side cy y b c)) path) := h
  exact hfill.rotate

omit h in
omit [DecidableEq N] in
theorem Subtree.isBlack {p : Option N} (h : T.Subtree p t) : T.isBlack (pointer t) = !t.isRed := by
  cases t with
  | null => rfl
  | node c n l r =>
    change decide (T.color n = .Black) = !(c == .Red)
    rw [h.2.1]
    cases c <;> rfl

omit h in
omit [DecidableEq N] in
theorem Represents.isBlack (h : T.Represents (plug t path)) :
    T.isBlack (pointer t) = !t.isRed := (represents_plug.mp h).1.isBlack

variable (ht : t ≠ null ∨ frame.sibling ≠ null)

include ht

omit [DecidableEq N] in
/-- The other child is not this one, unless both are null. -/
theorem Represents.sibling_ne : pointer frame.sibling ≠ pointer t := by
  intro heq
  have hnodup := (represents_plug.mp h).2.2
  have hdisjoint : ∀ n, pointer t = some n → pointer frame.sibling = some n → False := by
    intro n hn hn'
    refine (nodup_append.mp hnodup).2.2 n (mem_nodes_of_pointer hn) n ?_ rfl
    exact mem_cons_of_mem _ (mem_append_left _ (mem_nodes_of_pointer hn'))
  rcases ht with ht | ht
  · cases t with
    | null => exact ht rfl
    | node c n l r => exact hdisjoint n rfl heq
  · cases hs : frame.sibling with
    | null => exact ht hs
    | node c n l r =>
      rw [hs] at heq
      exact hdisjoint n heq.symm (by rw [hs]; rfl)

omit [DecidableEq N] in
theorem Represents.child_eq_iff (side : Side) :
    T.child side frame.data = pointer t ↔ side = frame.side := by
  have hcell := h.cell_frame
  have hne := h.sibling_ne ht
  constructor
  · intro heq
    by_contra hside
    obtain rfl : side = frame.side.other := by
      cases side <;> cases hs : frame.side <;> simp_all [Side.other]
    exact hne (hcell.other.symm.trans heq)
  · rintro rfl
    exact hcell.child

/-- The test of the code finds the side. -/
theorem Represents.side_eq :
    (if T.child .left frame.data = pointer t then Side.left else .right) = frame.side := by
  rw [if_congr (h.child_eq_iff ht .left) rfl rfl]
  cases hside : frame.side with
  | left => exact if_pos rfl
  | right => exact if_neg fun heq => by cases heq

omit ht

omit h in
omit [LinearOrder κ] [DecidableEq N] in
theorem pointer_plug : ∀ (path : Path N) (frame : Frame N) (t : Node N),
    ∃ r ∈ pathNodes (frame :: path), pointer (plug t (frame :: path)) = some r
  | [], frame, t => ⟨frame.data, mem_cons_self, pointer_make _ _ _ _ _⟩
  | frame' :: path, frame, t => by
    obtain ⟨r, hr, hpointer⟩ := pointer_plug path frame' (frame.fill t)
    exact ⟨r, mem_cons_of_mem _ (mem_append_right _ hr), hpointer⟩

omit [DecidableEq N] in
/-- Below an ancestor is not the root. -/
theorem Represents.root_ne : T.root ≠ pointer t := by
  obtain ⟨r, hr, hpointer⟩ := pointer_plug path frame t
  rw [h.root_eq, hpointer]
  intro heq
  exact (nodup_append.mp (represents_plug.mp h).2.2).2.2 r (mem_nodes_of_pointer heq.symm) r
    hr rfl

/-! ## The loop of `insert` -/

/-- Below a black parent the loop ends. -/
theorem insertFixup_black {x : N} (hx : pointer t = some x) (hblack : frame.color = .Black) :
    insertFixup (fuel + 1) x T = some T := by
  have hparent : T.parent x = some frame.data := by
    obtain ⟨hsubtree, -, -⟩ := represents_plug.mp h
    cases t with
    | null => cases hx
    | node c n l r =>
      obtain rfl := Option.some.inj hx
      exact hsubtree.1
  have hcolor : T.color frame.data = .Black := by
    rw [← hblack]
    exact h.cell_frame.color
  rw [insertFixup, if_neg (hx ▸ h.root_ne), hparent]
  dsimp only
  rw [hcolor, if_neg (show ¬Color.Black = Color.Red by decide)]

omit h

omit [DecidableEq N] in
theorem Subtree.parent_eq {p : Option N} {x : N} (h : T.Subtree p t) (hx : pointer t = some x) :
    T.parent x = p := by
  cases t with
  | null => cases hx
  | node c n l r =>
    obtain rfl := Option.some.inj hx
    exact h.1

omit [DecidableEq N] in
/-- The sibling's place, seen from below the same parent. -/
theorem plug_sibling (side : Side) (c : Color) (n : N) (t sibling : Node N) (path : Path N) :
    plug t (⟨side, c, n, sibling⟩ :: path) = plug sibling (⟨side.other, c, n, t⟩ :: path) := by
  cases side <;> rfl

/-- The parent, the uncle and the grandparent are painted. -/
theorem Represents.paint {parent : Frame N} (pc gc' uc' : Color)
    (h : T.Represents (plug x (parent :: ⟨gside, gc, g, node uc u ul ur⟩ :: path))) :
    (((T.setColor parent.data pc).setColor u uc').setColor g gc').Represents
      (plug (Frame.fill ⟨gside, gc', g, node uc' u ul ur⟩ ({ parent with color := pc }.fill x))
        path) := by
  have hparent : (T.setColor parent.data pc).Represents
      (plug ({ parent with color := pc }.fill x) (⟨gside, gc, g, node uc u ul ur⟩ :: path)) :=
    h.setColor_frame pc
  rw [plug_sibling] at hparent
  have huncle := hparent.setColor uc'
  rw [← plug_sibling] at huncle
  exact huncle.setColor_frame gc'

/-- Case 3: the parent comes up, and is the new black parent of `x`. -/
theorem Represents.raise {x : N} {S : Node N}
    (h : T.Represents (plug (make side pc p X S) (⟨side, gc, g, uncle⟩ :: path)))
    (hx : pointer X = some x) :
    T.parent x = some p ∧ T.parent p = some g ∧
      ∃ T', ((T.setColor p .Black).setColor g .Red).rotate side.other g = some T' ∧
        T'.Represents (plug X (⟨side, .Black, p, make side.other .Red g uncle S⟩ :: path)) := by
  have hp := h.cell
  obtain ⟨hsubtree, -, -⟩ := represents_plug.mp h
  refine ⟨(subtree_make.mp hsubtree).2.2.2.2.1.parent_eq hx, hp.parent, ?_⟩
  have hpainted : ((T.setColor p .Black).setColor g .Red).Represents
      (plug (make side .Black p X S) (⟨side, .Red, g, uncle⟩ :: path)) :=
    (h.setColor_make .Black).setColor_frame .Red
  rw [plug_sibling, ← Node.make_other] at hpainted
  obtain ⟨T', hrotate, hT'⟩ := hpainted.rotate_frame
  rw [Node.make_other] at hT'
  exact ⟨T', hrotate, hT'⟩

theorem rotate_raised (side : Side) (pc : Color) (p g : N) (X S uncle : Node N) :
    Platform.PODRedBlackTree.rotate (linked key) side.other
        (Frame.fill ⟨side, .Red, g, uncle⟩ ((make side pc p X S).setColor .Black)) =
      some (Frame.fill ⟨side, .Black, p, make side.other .Red g uncle S⟩ X) := by
  cases side <;> rfl

/-- Cases 2 and 3, which end with the loop variable below a black parent. -/
theorem insertRound_black {parent : Frame N} {x : N}
    (h : T.Represents (plug (node c x l r) (parent :: ⟨gside, gc, g, uncle⟩ :: path)))
    (hred : parent.color = .Red) (huncle : uncle.isRed = false)
    (hfixup : Platform.PODRedBlackTree.insertFixup (linked key) (node c x l r)
      (parent :: ⟨gside, gc, g, uncle⟩ :: path) = some (t, path')) :
    path' = path ∧ ∃ x' T' X frame, T.insertRound gside x parent.data g = some (x', T') ∧
      T'.Represents (plug X (frame :: path)) ∧ pointer X = some x' ∧ frame.color = .Black ∧
        t = frame.fill X := by
  rw [Platform.PODRedBlackTree.insertFixup, if_pos hred, huncle]
    at hfixup
  have hup : T.Represents (plug (parent.fill (node c x l r)) (⟨gside, gc, g, uncle⟩ :: path)) := h
  have hg : T.Cell gside gc g _ uncle path := hup.cell_frame
  have hcalm : T.isBlack (T.child gside.other g) = true := by
    have hsibling := h
    rw [plug, plug_sibling] at hsibling
    rw [hg.other, hsibling.isBlack, huncle]
    rfl
  unfold insertRound
  rw [if_pos hcalm]
  obtain ⟨pside, pc, p, S⟩ := parent
  obtain rfl : pc = .Red := hred
  have hinner := h.child_eq_iff (.inl fun heq => by cases heq) gside.other
  by_cases hside : pside = gside
  · subst hside
    have hnot : ¬T.child pside.other p = some x := fun heq => by
      have hfalse := hinner.mp heq
      cases pside <;> cases hfalse
    rw [if_neg hnot]
    dsimp only at hfixup ⊢
    rw [if_pos rfl] at hfixup
    obtain ⟨hxp, hpg, T', hrotate, hT'⟩ := Represents.raise (X := node c x l r) h rfl
    have hupper : Frame.fill ⟨pside, .Red, p, S⟩ (node c x l r) =
        make pside .Red p (node c x l r) S := rfl
    rw [hupper] at hfixup
    dsimp only at hfixup
    rw [rotate_raised] at hfixup
    obtain ⟨rfl, rfl⟩ := Prod.mk.inj (Option.some.inj hfixup)
    rw [hxp]
    dsimp only
    rw [hpg]
    dsimp only
    rw [hrotate]
    exact ⟨rfl, x, T', _, _, rfl, hT', rfl, rfl, rfl⟩
  · -- the inner child comes up first, and the loop variable becomes its parent
    obtain rfl : pside = gside.other := by
      cases pside <;> cases gside <;> first | rfl | exact absurd rfl hside
    obtain ⟨near, far, hx⟩ := Node.exists_make gside c x l r
    have hin : T.child gside.other p = some x := hinner.mpr rfl
    rw [hx] at h hfixup
    rw [if_neg hside] at hfixup
    rw [if_pos hin]
    have hfill : Frame.fill ⟨gside.other, .Red, p, S⟩ (make gside c x near far) =
        make gside .Red p S (make gside c x near far) := Node.make_other _ _ _ _ _
    have hup : T.Represents
        (plug (make gside .Red p S (make gside c x near far)) (⟨gside, gc, g, uncle⟩ :: path)) :=
      hfill ▸ h
    obtain ⟨T₁, hrotate₁, hT₁⟩ := hup.rotate
    rw [hfill, rotate_linked] at hfixup
    dsimp only at hfixup
    rw [rotate_raised] at hfixup
    obtain ⟨rfl, rfl⟩ := Prod.mk.inj (Option.some.inj hfixup)
    obtain ⟨hxp, hpg, T', hrotate, hT'⟩ := hT₁.raise (pointer_make _ _ _ _ _)
    rw [hrotate₁]
    dsimp only [Option.map_some]
    rw [hxp]
    dsimp only
    rw [hpg]
    dsimp only
    rw [hrotate]
    exact ⟨rfl, p, T', _, _, rfl, hT', pointer_make _ _ _ _ _, rfl, rfl⟩

/-- The loop of `insert` goes up as the function on trees does. -/
theorem insertFixup_refines : ∀ {path : Path N} {c : Color} {x : N} {l r t : Node N}
    {path' : Path N} {T : RedBlackTree N} {fuel : ℕ},
    T.Represents (plug (node c x l r) path) → path.length < fuel →
      Platform.PODRedBlackTree.insertFixup (linked key) (node c x l r) path = some (t, path') →
        ∃ T', insertFixup fuel x T = some T' ∧ T'.Represents (plug t path')
  | [], c, x, l, r, t, path', T, fuel + 1, h, _, hfixup => by
    rw [Platform.PODRedBlackTree.insertFixup] at hfixup
    cases hfixup
    rw [insertFixup, if_pos (show T.root = some x from h.root_eq)]
    exact ⟨T, rfl, h⟩
  | [parent], c, x, l, r, t, path', T, fuel + 1, h, _, hfixup => by
    rw [Platform.PODRedBlackTree.insertFixup] at hfixup
    split at hfixup
    · cases hfixup
    · rename_i hcolor
      cases hfixup
      refine ⟨T, insertFixup_black h rfl ?_, h⟩
      cases hblack : parent.color with
      | Black => rfl
      | Red => exact absurd hblack hcolor
  | parent :: ⟨gside, gc, g, uncle⟩ :: path, c, x, l, r, t, path', T, fuel + 1, h, hfuel,
    hfixup => by
    cases hcolor : parent.color with
    | Black =>
      rw [Platform.PODRedBlackTree.insertFixup, hcolor] at hfixup
      cases hfixup
      exact ⟨T, insertFixup_black h rfl hcolor, h⟩
    | Red =>
      have hroot : ¬T.root = some x := h.root_ne
      have hp : T.Cell parent.side parent.color parent.data _ _ (⟨gside, gc, g, uncle⟩ :: path) :=
        h.cell_frame
      have hx : T.parent x = some parent.data := (represents_plug.mp h).1.1
      have hside : (if T.child .left g = some parent.data then Side.left else .right) = gside := by
        have hup : T.Represents
            (plug (parent.fill (node c x l r)) (⟨gside, gc, g, uncle⟩ :: path)) := h
        have hne : parent.fill (node c x l r) ≠ null := by
          intro heq
          have hpointer := pointer_make parent.side parent.color parent.data (node c x l r)
            parent.sibling
          rw [show make _ _ _ _ _ = null from heq] at hpointer
          cases hpointer
        have hpointer : pointer (parent.fill (node c x l r)) = some parent.data :=
          pointer_make _ _ _ _ _
        rw [← hpointer]
        exact hup.side_eq (.inl hne)
      rw [insertFixup, if_neg hroot, hx]
      dsimp only
      rw [hp.color, if_pos hcolor, show T.parent parent.data = some g from hp.parent]
      dsimp only
      rw [hside]
      cases huncle : uncle.isRed with
      | true =>
        cases uncle with
        | null => cases huncle
        | node uc u ul ur =>
          obtain rfl : uc = .Red := eq_of_beq huncle
          rw [Platform.PODRedBlackTree.insertFixup, if_pos hcolor] at hfixup
          simp only [updateNode_linked] at hfixup
          have hup : T.Represents
              (plug (parent.fill (node c x l r)) (⟨gside, gc, g, node .Red u ul ur⟩ :: path)) := h
          have hg : T.Cell gside gc g _ (node .Red u ul ur) path := hup.cell_frame
          have hred : ¬T.isBlack (T.child gside.other g) = true := by
            have hsibling := h
            rw [plug, plug_sibling] at hsibling
            rw [hg.other, hsibling.isBlack]
            exact Bool.false_ne_true
          have hround : T.insertRound gside x parent.data g =
              some (g, ((T.setColor parent.data .Black).setColor u .Black).setColor g .Red) := by
            unfold insertRound
            rw [if_neg hred, hg.other]
            rfl
          rw [hround]
          have hpaint := Represents.paint .Black .Red .Black h
          simp only [length_cons] at hfuel
          cases gside with
          | _ => exact insertFixup_refines hpaint (by omega) hfixup
      | false =>
        obtain ⟨rfl, x', T', X, frame, hround, hT', hX, hblack, rfl⟩ :=
          insertRound_black h hcolor huncle hfixup
        rw [hround]
        obtain ⟨fuel, rfl⟩ : ∃ n, fuel = n + 1 := ⟨fuel - 1, by
          rw [length_cons] at hfuel
          omega⟩
        exact ⟨T', insertFixup_black hT' hX hblack, hT'⟩

/-! ## The loop of `removeFixup` -/

omit [DecidableEq N] in
theorem pointer_plug_node (path : Path N) (ht : t ≠ null) :
    ∃ r, pointer (plug t path) = some r := by
  cases path with
  | nil =>
    cases t with
    | null => exact absurd rfl ht
    | node c n l r => exact ⟨n, rfl⟩
  | cons frame path =>
    obtain ⟨r, -, hr⟩ := pointer_plug path frame t
    exact ⟨r, hr⟩

omit [DecidableEq N] in
theorem make_ne_null (side : Side) (c : Color) (n : N) (near far : Node N) :
    make side c n near far ≠ null := by
  cases side <;> exact fun heq => by cases heq

/-- The top of a subtree is painted. -/
theorem Represents.paintBlack (h : T.Represents (plug t path)) :
    (T.paintBlack (pointer t)).Represents (plug (t.setColor .Black) path) := by
  cases t with
  | null => exact h
  | node c n l r => exact h.setColor .Black

theorem removeFixup_end {x : Option N} (fuel : ℕ) (h : ¬(x ≠ T.root ∧ T.isBlack x = true)) :
    removeFixup (fuel + 1) x xParent T = some (T.paintBlack x) := by
  cases xParent with
  | _ => rw [removeFixup, if_neg h]

/-- At a red node the loop ends and paints it. -/
theorem removeFixup_red (fuel : ℕ) (h : T.Represents (plug t path)) (ht : t.isRed = true) :
    ∃ T', removeFixup (fuel + 1) (pointer t) xParent T = some T' ∧
      T'.Represents (plug (t.setColor .Black) path) := by
  have hred := h.isBlack
  rw [ht] at hred
  refine ⟨_, removeFixup_end fuel fun hcalm => ?_, h.paintBlack⟩
  rw [hred] at hcalm
  cases hcalm.2

/-- At the root the loop ends and paints it. -/
theorem removeFixup_root (fuel : ℕ) (h : T.Represents t) :
    ∃ T', removeFixup (fuel + 1) T.root xParent T = some T' ∧
      T'.Represents (t.setColor .Black) := by
  rw [removeFixup_end fuel fun hne => hne.1 rfl, h.root_eq]
  have hplug : T.Represents (plug t []) := h
  exact ⟨_, rfl, hplug.paintBlack⟩

/-- A sibling is painted. -/
theorem Represents.paintSibling (c' : Color)
    (h : T.Represents (plug x (⟨side, pc, p, make s c w near far⟩ :: path))) :
    (T.setColor w c').Represents (plug x (⟨side, pc, p, make s c' w near far⟩ :: path)) := by
  rw [plug_sibling] at h ⊢
  exact h.setColor_make c'

/-- The fields of a sibling. -/
theorem Represents.sibling
    (h : T.Represents (plug x (⟨side, pc, p, make s c w near far⟩ :: path))) :
    T.Cell s c w near far (⟨side.other, pc, p, x⟩ :: path) := by
  rw [plug_sibling] at h
  exact h.cell

/-- Case 4. -/
theorem raiseParent_spec
    (h : T.Represents (plug x (⟨side, pc, p, make side c w near far⟩ :: path))) :
    ∃ r T', T.raiseParent side w p = some (some r, T'.parent r, T') ∧ T'.root = some r ∧
      T'.Represents (plug (make side pc w (make side .Black p x near) (far.setColor .Black))
        path) := by
  have hp : T.Cell side pc p x _ path := h.cell_frame
  have hpainted : ((T.setColor w pc).setColor p .Black).Represents
      (plug x (⟨side, .Black, p, make side pc w near far⟩ :: path)) :=
    (h.paintSibling pc).setColor_frame .Black
  unfold raiseParent
  rw [hp.color]
  generalize (T.setColor w pc).setColor p .Black = T₁ at hpainted
  have hfar : (T₁.paintBlack (pointer far)).Represents
      (plug x (⟨side, .Black, p, make side pc w near (far.setColor .Black)⟩ :: path)) := by
    rw [plug_sibling, ← Node.make_other] at hpainted ⊢
    have hdown : T₁.Represents (plug far (⟨side.other, pc, w, near⟩ ::
        ⟨side.other, .Black, p, x⟩ :: path)) := hpainted
    exact hdown.paintBlack
  obtain ⟨T', hrotate, hT'⟩ := hfar.rotate_frame
  obtain ⟨r, hr⟩ := pointer_plug_node path (make_ne_null side pc w (make side .Black p x near)
    (far.setColor .Black))
  have hroot : T'.root = some r := hT'.root_eq.trans hr
  dsimp only
  rw [hpainted.sibling.other, hrotate]
  dsimp only
  rw [hroot]
  exact ⟨r, T', rfl, hroot, hT'⟩

omit [DecidableEq N] in
/-- The subtree of the sibling, seen from the other side. -/
theorem plug_sibling' (side : Side) (c : Color) (n : N) (t sibling : Node N) (path : Path N) :
    plug t (⟨side.other, c, n, sibling⟩ :: path) = plug sibling (⟨side, c, n, t⟩ :: path) := by
  cases side <;> rfl

/-- Case 3: the near child of the sibling comes up. -/
theorem raiseNephew_spec {cn : Color}
    (h : T.Represents (plug x (⟨side, pc, p, make side cw w (make side cn n a b) far⟩ :: path)))
    (hfar : far.isRed = false) :
    ∃ T', T.raiseNephew side w p = some (n, T') ∧ T'.Represents
      (plug x (⟨side, pc, p, make side .Black n a (make side .Red w b far)⟩ :: path)) := by
  have hw := h.sibling
  rw [plug_sibling] at h
  have hfarBlack : T.isBlack (T.child side.other w) = true := by
    have hdown : T.Represents (plug (make side cn n a b) (⟨side, cw, w, far⟩ ::
      ⟨side.other, pc, p, x⟩ :: path)) := h
    rw [plug_sibling] at hdown
    rw [hw.other, hdown.isBlack, hfar]
    rfl
  have hpainted : ((T.setColor n .Black).setColor w .Red).Represents
      (plug (make side .Black n a b) (⟨side, .Red, w, far⟩ :: ⟨side.other, pc, p, x⟩ :: path)) := by
    have hdown : T.Represents (plug (make side cn n a b) (⟨side, cw, w, far⟩ ::
      ⟨side.other, pc, p, x⟩ :: path)) := h
    exact (hdown.setColor_make .Black).setColor_frame .Red
  rw [plug_sibling, ← Node.make_other] at hpainted
  obtain ⟨T', hrotate, hT'⟩ := hpainted.rotate_frame
  rw [Node.make_other, Node.make_other, plug_sibling'] at hT'
  have hchild : T'.child side.other p = some n := by
    rw [hT'.cell_frame.other, pointer_make]
  unfold raiseNephew
  rw [if_pos hfarBlack, hw.child, pointer_make]
  dsimp only
  rw [hrotate]
  dsimp only
  rw [hchild]
  exact ⟨T', rfl, hT'⟩

theorem fixSibling_far (hfar : far.isRed = true) :
    fixSibling (linked key) x ⟨side, pc, p, make side cw w near far⟩ =
      some (make side pc w (make side .Black p x near) (far.setColor .Black), false) :=
  Platform.fixSibling_far hfar (rotate_linked ..)

theorem fixSibling_near (hfar : far.isRed = false) : fixSibling (linked key) x
        ⟨side, pc, p, make side cw w (make side .Red n a b) far⟩ =
      some (make side pc n (make side .Black p x a) (make side .Black w b far), false) := by
  have hinner : Platform.PODRedBlackTree.rotate (linked key) side.other
      (make side .Red w ((make side .Red n a b).setColor .Black) far) =
        some (make side .Black n a (make side .Red w b far)) := by
    rw [Node.setColor_make, ← Node.make_other side .Red, ← Node.make_other side .Black n,
      rotate_linked, Node.make_other, Node.make_other]
  rw [Platform.fixSibling_near (Node.isRed_make ..) hfar hinner (rotate_linked ..),
    Node.setColor_make]

/-- Where the loop goes on, the parent keeps its color. -/
theorem fixSibling_true (h : fixSibling (linked key) x
      ⟨side, pc, p, make side cw w near far⟩ = some (t, true)) : t.isRed = (pc == .Red) := by
  cases hfar : far.isRed with
  | true =>
    rw [fixSibling_far hfar] at h
    cases h
  | false =>
    cases hnear : near.isRed with
    | false =>
      rw [Platform.fixSibling_black hnear hfar] at h
      cases h
      exact Node.isRed_make _ _ _ _ _
    | true =>
      cases near with
      | null => cases hnear
      | node c n l r =>
        obtain rfl : c = .Red := eq_of_beq hnear
        obtain ⟨a, b, hmake⟩ := Node.exists_make side .Red n l r
        rw [hmake, fixSibling_near hfar] at h
        cases h

/-- What a round leaves for the next one, when the function on trees leaves a subtree. -/
structure Rounds (T' : RedBlackTree N) (p : N) (path : Path N) (t : Node N) (again : Bool)
    (x xParent : Option N) : Prop where
  represents : T'.Represents (plug t path)
  goesOn : again = true → x = pointer t ∧ xParent = parentOf path ∧ pointer t = some p
  ends : again = false → x = T'.root

/-- Cases 2 to 4. -/
theorem removeCases_spec {again : Bool}
    (h : T.Represents (plug x (⟨side, pc, p, make side cw w near far⟩ :: path)))
    (hfix : fixSibling (linked key) x
      ⟨side, pc, p, make side cw w near far⟩ = some (t, again)) :
    ∃ y yParent T', T.removeCases side w p = some (y, yParent, T') ∧
      Rounds T' p path t again y yParent := by
  have hw := h.sibling
  have hnear : T.isBlack (T.child side w) = !near.isRed := by
    have hdown := h
    rw [plug_sibling] at hdown
    have hdown : T.Represents
        (plug near (⟨side, cw, w, far⟩ :: ⟨side.other, pc, p, x⟩ :: path)) := hdown
    rw [hw.child, hdown.isBlack]
  have hfar : T.isBlack (T.child side.other w) = !far.isRed := by
    have hdown := h
    rw [plug_sibling] at hdown
    have hdown : T.Represents
        (plug near (⟨side, cw, w, far⟩ :: ⟨side.other, pc, p, x⟩ :: path)) := hdown
    rw [plug_sibling] at hdown
    rw [hw.other, hdown.isBlack]
  unfold removeCases
  rw [hnear, hfar]
  cases hfarRed : far.isRed with
  | true =>
    rw [fixSibling_far hfarRed] at hfix
    obtain ⟨rfl, rfl⟩ := Prod.mk.inj (Option.some.inj hfix)
    obtain ⟨r, T', hraise, hroot, hT'⟩ := raiseParent_spec h
    have hnephew : T.raiseNephew side w p = some (w, T) := by
      unfold raiseNephew
      rw [hfar, hfarRed]
      exact if_neg Bool.false_ne_true
    rw [Bool.not_true, Bool.and_false, hnephew]
    refine ⟨_, _, T', hraise, hT', fun hagain => ?_, fun _ => hroot.symm⟩
    cases hagain
  | false =>
    cases hnearRed : near.isRed with
    | false =>
      rw [Platform.fixSibling_black hnearRed hfarRed] at hfix
      obtain ⟨rfl, rfl⟩ := Prod.mk.inj (Option.some.inj hfix)
      have hpainted := h.paintSibling .Red
      refine ⟨_, _, _, rfl, hpainted, fun _ => ⟨?_, ?_, ?_⟩, fun hagain => ?_⟩
      · rw [pointer_make]
      · exact hpainted.cell_frame.parent
      · rw [pointer_make]
      · cases hagain
    | true =>
      obtain ⟨n, a, b, rfl⟩ : ∃ n a b, near = make side .Red n a b := by
        cases near with
        | null => cases hnearRed
        | node c n l r =>
          obtain rfl : c = .Red := eq_of_beq hnearRed
          obtain ⟨a, b, hmake⟩ := Node.exists_make side .Red n l r
          exact ⟨n, a, b, hmake⟩
      rw [fixSibling_near hfarRed] at hfix
      obtain ⟨rfl, rfl⟩ := Prod.mk.inj (Option.some.inj hfix)
      obtain ⟨T₁, hnephew, hT₁⟩ := raiseNephew_spec h hfarRed
      obtain ⟨r, T', hraise, hroot, hT'⟩ := raiseParent_spec hT₁
      rw [Node.setColor_make] at hT'
      rw [hnephew]
      refine ⟨_, _, T', hraise, hT', fun hagain => ?_, fun _ => hroot.symm⟩
      cases hagain

/-- Case 1: the sibling comes up, and is red no more. -/
theorem raiseSibling_spec {cn : Color}
    (h : T.Represents (plug x (⟨side, pc, p, make side .Red w (make side cn n a b) far⟩ :: path))) :
    ∃ T', T.raiseSibling side w p = some (n, T') ∧ T'.Represents
      (plug x (⟨side, .Red, p, make side cn n a b⟩ :: ⟨side, .Black, w, far⟩ :: path)) := by
  have hpainted : ((T.setColor w .Black).setColor p .Red).Represents
      (plug x (⟨side, .Red, p, make side .Black w (make side cn n a b) far⟩ :: path)) :=
    (h.paintSibling .Black).setColor_frame .Red
  obtain ⟨T', hrotate, hT'⟩ := hpainted.rotate_frame
  have hdown : T'.Represents
      (plug x (⟨side, .Red, p, make side cn n a b⟩ :: ⟨side, .Black, w, far⟩ :: path)) := hT'
  have hchild : T'.child side.other p = some n := by
    rw [hdown.cell_frame.other, pointer_make]
  unfold raiseSibling
  rw [if_pos h.sibling.color, hrotate]
  dsimp only
  rw [hchild]
  exact ⟨T', rfl, hdown⟩

theorem raiseSibling_black
    (h : T.Represents (plug x (⟨side, pc, p, make s .Black w near far⟩ :: path))) :
    T.raiseSibling side w p = some (w, T) := by
  unfold raiseSibling
  rw [h.sibling.color]
  exact if_neg fun heq => by cases heq

omit [DecidableEq N] in
theorem fixSibling_ne_null {r : Node N × Bool} {E : Element N}
    (h : fixSibling E x frame = some r) : frame.sibling ≠ null := by
  intro hnull
  rw [fixSibling, hnull] at h
  cases h

omit [DecidableEq N] in
/-- A node that is not null, from the given side. -/
theorem exists_make_of_ne_null (side : Side) (ht : t ≠ null) :
    ∃ c n near far, t = make side c n near far := by
  cases t with
  | null => exact absurd rfl ht
  | node c n l r =>
    obtain ⟨near, far, hmake⟩ := Node.exists_make side c n l r
    exact ⟨c, n, near, far, hmake⟩

/-- The loop of `removeFixup` goes up as the function on trees does. -/
theorem removeFixup_refines : ∀ {path : Path N} {x root : Node N} {T : RedBlackTree N} {fuel : ℕ},
    T.Represents (plug x path) → path.length < fuel → deleteFixup (linked key) x path = some root →
        ∃ T', removeFixup fuel (pointer x) (parentOf path) T = some T' ∧ T'.Represents root
  | [], x, root, T, fuel + 1, h, _, hfixup => by
    obtain rfl := Option.some.inj hfixup
    have hroot : T.root = pointer x := h.root_eq
    rw [← hroot]
    exact removeFixup_root fuel h
  | ⟨side, pc, p, sibling⟩ :: path, x, root, T, fuel + 1, h, hfuel, hfixup => by
    rw [length_cons] at hfuel
    rw [deleteFixup] at hfixup
    cases hx : x.isRed with
    | true =>
      rw [hx] at hfixup
      obtain rfl := Option.some.inj hfixup
      exact removeFixup_red fuel h hx
    | false =>
      rw [hx, if_neg Bool.false_ne_true] at hfixup
      have hsibling : sibling ≠ null := by
        rintro rfl
        cases hfixup
      obtain ⟨cw, w, near, far, rfl⟩ := exists_make_of_ne_null side hsibling
      have hside : (if pointer x = T.child .left p then Side.left else .right) = side := by
        rw [← if_congr eq_comm rfl rfl]
        exact h.side_eq (.inr hsibling)
      have hloop : pointer x ≠ T.root ∧ T.isBlack (pointer x) = true := by
        refine ⟨h.root_ne.symm, ?_⟩
        rw [h.isBlack, hx]
        rfl
      have hw : T.child side.other p = some w := by
        rw [h.cell_frame.other, pointer_make]
      have hloop' : ∀ {y yParent T'}, T.removeRound side p = some (y, yParent, T') →
          removeFixup (fuel + 1) (pointer x) (some p) T = removeFixup fuel y yParent T' := by
        intro y yParent T' hround
        rw [removeFixup, if_pos hloop, hside, hround]
      obtain ⟨fuel, rfl⟩ : ∃ n, fuel = n + 1 := ⟨fuel - 1, by omega⟩
      change ∃ T', removeFixup (fuel + 1 + 1) (pointer x) (some p) T = some T' ∧ _
      cases cw with
      | Red =>
        have hred : (make side .Red w near far).isRed = true := Node.isRed_make _ _ _ _ _
        simp only [hred, Node.setColor_make, Frame.fill, rotate_linked,
          Platform.Frame.descend_make, Node.child_make] at hfixup
        cases hfix : fixSibling (linked key) x ⟨side, .Red, p, near⟩ with
        | none =>
          rw [hfix] at hfixup
          cases hfixup
        | some result =>
          obtain ⟨t, again⟩ := result
          rw [hfix] at hfixup
          obtain ⟨cn, n, a, b, rfl⟩ := exists_make_of_ne_null side (fixSibling_ne_null hfix)
          obtain ⟨T₁, hraise, hT₁⟩ := raiseSibling_spec h
          obtain ⟨y, yParent, T', hcases, hrounds⟩ := removeCases_spec hT₁ hfix
          rw [hloop' (show T.removeRound side p = _ by
            unfold removeRound
            rw [hw]
            dsimp only
            rw [hraise]
            exact hcases)]
          cases again with
          | true =>
            obtain rfl := Option.some.inj hfixup
            rw [(hrounds.goesOn rfl).1]
            exact removeFixup_red fuel hrounds.represents (fixSibling_true hfix)
          | false =>
            obtain rfl := Option.some.inj hfixup
            rw [hrounds.ends rfl]
            exact removeFixup_root fuel hrounds.represents
      | Black =>
        have hblack : (make side .Black w near far).isRed = false := Node.isRed_make _ _ _ _ _
        simp only [hblack] at hfixup
        cases hfix : fixSibling (linked key) x
            ⟨side, pc, p, make side .Black w near far⟩ with
        | none =>
          rw [hfix] at hfixup
          cases hfixup
        | some result =>
          obtain ⟨t, again⟩ := result
          rw [hfix] at hfixup
          obtain ⟨y, yParent, T', hcases, hrounds⟩ := removeCases_spec h hfix
          rw [hloop' (show T.removeRound side p = _ by
            unfold removeRound
            rw [hw]
            dsimp only
            rw [raiseSibling_black h]
            exact hcases)]
          cases again with
          | true =>
            obtain ⟨rfl, rfl, -⟩ := hrounds.goesOn rfl
            exact removeFixup_refines hrounds.represents (by omega) hfixup
          | false =>
            obtain rfl := Option.some.inj hfixup
            rw [hrounds.ends rfl]
            exact removeFixup_root fuel hrounds.represents

end RedBlackTree

end WTF
end WebKit
