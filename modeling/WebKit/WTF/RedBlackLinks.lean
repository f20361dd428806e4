import WebKit.Platform.RedBlackDeletion
import WebKit.WTF.RedBlackTree

/-!
# The tree behind the links of the nodes

`Represents T root`: the pointers of `T` are those of the tree `root`, whose data are the nodes
themselves.  A subtree and its ancestors can be read off the pointers around it
(`represents_plug`), and each primitive of the code changes the tree in one place:

* `Represents.setColor`, `Represents.rotate`.
* `Represents.link`: a new leaf.
* `Represents.unlink`: a node with at most one child leaves.
* `Represents.replace`: another node takes the place of one.
-/

namespace WebKit

open List
namespace WTF

open Platform (Color Side Node Frame Path)
open Platform.Node (null node make)
open Platform.PODRedBlackTree (plug)

variable {N : Type*}

/-- The pointer to a tree. -/
def pointer : Node N → Option N
  | null => none
  | node _ n _ _ => some n

/-- The nodes of a tree in order. -/
def nodes (t : Node N) : List N := t.keys id

/-- The pointer to the parent of what is below these ancestors. -/
def parentOf (path : Path N) : Option N := path.head?.map Frame.data

/-- The ancestors and what hangs from them. -/
def pathNodes : Path N → List N
  | [] => []
  | frame :: path => frame.data :: (nodes frame.sibling ++ pathNodes path)

variable (side : Side) (c : Color) (n : N) (near far : Node N)

theorem pointer_make : pointer (make side c n near far) = some n := by
  cases side <;> rfl

theorem mem_nodes_make {side : Side} {c : Color} {n m : N} {near far : Node N} :
    m ∈ nodes (make side c n near far) ↔ m = n ∨ m ∈ nodes near ∨ m ∈ nodes far := by
  cases side <;> simp [nodes, make, Node.keys] <;> tauto

theorem mem_nodes_of_pointer {t : Node N} {n : N} (h : pointer t = some n) : n ∈ nodes t := by
  cases t with
  | null => cases h
  | node c m l r =>
    obtain rfl := Option.some.inj h
    exact mem_append_right _ mem_cons_self

theorem mem_pathNodes_of_parentOf {path : Path N} {p : N} (h : parentOf path = some p) :
    p ∈ pathNodes path := by
  cases path with
  | nil => cases h
  | cons frame path =>
    obtain rfl := Option.some.inj h
    exact mem_cons_self

theorem nodes_make_perm :
    (nodes (make side c n near far)).Perm (n :: (nodes near ++ nodes far)) := by
  cases side with
  | left => exact perm_middle
  | right => exact perm_middle.trans (perm_append_comm.cons n)

/-- What is distinct around a node. -/
theorem nodup_make {side : Side} {c : Color} {n : N} {near far : Node N} {rest : List N} :
    (nodes (make side c n near far) ++ rest).Nodup ↔
      n ∉ nodes near ∧ n ∉ nodes far ∧ n ∉ rest ∧ (nodes near ++ (nodes far ++ rest)).Nodup := by
  rw [((nodes_make_perm side c n near far).append_right rest).nodup_iff, cons_append,
    nodup_cons, append_assoc, mem_append, mem_append]
  tauto

theorem nodup_node {c : Color} {n : N} {l r : Node N} {rest : List N} :
    (nodes (node c n l r) ++ rest).Nodup ↔
      n ∉ nodes l ∧ n ∉ nodes r ∧ n ∉ rest ∧ (nodes l ++ (nodes r ++ rest)).Nodup :=
  @nodup_make N .left c n l r rest

theorem nodes_plug_perm : ∀ (path : Path N) (t : Node N),
    (nodes (plug t path)).Perm (nodes t ++ pathNodes path)
  | [], t => by rw [pathNodes, append_nil]; exact List.Perm.refl _
  | frame :: path, t => by
    refine (nodes_plug_perm path (frame.fill t)).trans ?_
    have hfill := (nodes_make_perm frame.side frame.color frame.data t frame.sibling).append_right
      (pathNodes path)
    refine hfill.trans ?_
    rw [cons_append, append_assoc]
    exact perm_middle.symm

namespace RedBlackTree

/-! ## Reading the links -/

/-- The pointers below a parent are those of a tree. -/
def Subtree (T : RedBlackTree N) : Option N → Node N → Prop
  | _, null => True
  | p, node c n l r =>
    T.parent n = p ∧ T.color n = c ∧ T.child .left n = pointer l ∧ T.child .right n = pointer r ∧
      Subtree T (some n) l ∧ Subtree T (some n) r

/-- The pointers above a subtree are those of its ancestors, and `x` is the pointer to it. -/
def Ancestors (T : RedBlackTree N) (x : Option N) : Path N → Prop
  | [] => T.root = x
  | frame :: path =>
    T.child frame.side frame.data = x ∧
      T.parent frame.data = parentOf path ∧ T.color frame.data = frame.color ∧
      T.child frame.side.other frame.data = pointer frame.sibling ∧
      Subtree T (some frame.data) frame.sibling ∧ Ancestors T (some frame.data) path

/-- The tree that the pointers from the root on are, without sharing. -/
structure Represents (T : RedBlackTree N) (root : Node N) : Prop where
  root_eq : T.root = pointer root
  subtree : T.Subtree none root
  nodup : (nodes root).Nodup

variable {T T' : RedBlackTree N}

theorem subtree_make {p : Option N} {side : Side} {c : Color} {n : N} {near far : Node N} :
    T.Subtree p (make side c n near far) ↔
      T.parent n = p ∧ T.color n = c ∧ T.child side n = pointer near ∧
        T.child side.other n = pointer far ∧ T.Subtree (some n) near ∧ T.Subtree (some n) far := by
  cases side with
  | left => exact Iff.rfl
  | right =>
    simp only [make, Subtree]
    tauto

/-- The pointers around a subtree tell it and its ancestors. -/
theorem subtree_plug : ∀ (path : Path N) (t : Node N),
    (T.root = pointer (plug t path) ∧ T.Subtree none (plug t path)) ↔
      T.Subtree (parentOf path) t ∧ T.Ancestors (pointer t) path
  | [], t => and_comm
  | frame :: path, t => by
    rw [plug, subtree_plug path, Frame.fill, subtree_make, pointer_make, Ancestors]
    tauto

theorem represents_plug {path : Path N} {t : Node N} : T.Represents (plug t path) ↔
      T.Subtree (parentOf path) t ∧ T.Ancestors (pointer t) path ∧
        (nodes t ++ pathNodes path).Nodup := by
  have hperm := (nodes_plug_perm path t).nodup_iff
  have hplug := subtree_plug (T := T) path t
  constructor
  · intro h
    obtain ⟨hsubtree, hancestors⟩ := hplug.mp ⟨h.root_eq, h.subtree⟩
    exact ⟨hsubtree, hancestors, hperm.mp h.nodup⟩
  · rintro ⟨hsubtree, hancestors, hnodup⟩
    obtain ⟨hroot, hsubtree⟩ := hplug.mpr ⟨hsubtree, hancestors⟩
    exact ⟨hroot, hsubtree, hperm.mpr hnodup⟩

/-! ## What a primitive leaves alone -/

/-- The fields of a node are the same. -/
structure SameCell (T T' : RedBlackTree N) (n : N) : Prop where
  parent : T'.parent n = T.parent n
  color : T'.color n = T.color n
  child : ∀ side, T'.child side n = T.child side n

theorem SameCell.trans {T'' : RedBlackTree N} {n : N} (h : SameCell T T' n)
    (h' : SameCell T' T'' n) : SameCell T T'' n where
  parent := h'.parent.trans h.parent
  color := h'.color.trans h.color
  child side := (h'.child side).trans (h.child side)

theorem Subtree.congr (h : T.Subtree p t)
    (hsame : ∀ n ∈ nodes t, SameCell T T' n) : T'.Subtree p t := by
  induction t generalizing p with
  | null => trivial
  | node c n l r ihl ihr =>
    obtain ⟨hparent, hcolor, hleft, hright, hl, hr⟩ := h
    have hn := hsame n (mem_append_right _ mem_cons_self)
    refine ⟨hn.parent.trans hparent, hn.color.trans hcolor, (hn.child _).trans hleft,
      (hn.child _).trans hright, ihl hl fun m hm => ?_, ihr hr fun m hm => ?_⟩
    · exact hsame m (mem_append_left _ hm)
    · exact hsame m (mem_append_right _ (mem_cons_of_mem _ hm))

theorem Ancestors.congr {x : Option N} {path : Path N} (h : T.Ancestors x path)
    (hroot : T'.root = T.root) (hsame : ∀ n ∈ pathNodes path, SameCell T T' n) :
    T'.Ancestors x path := by
  induction path generalizing x with
  | nil => exact hroot.trans h
  | cons frame path ih =>
    obtain ⟨hchild, hparent, hcolor, hother, hsibling, hpath⟩ := h
    have hn := hsame frame.data mem_cons_self
    refine ⟨(hn.child _).trans hchild, hn.parent.trans hparent, hn.color.trans hcolor,
      (hn.child _).trans hother, hsibling.congr fun m hm => ?_, ih hpath fun m hm => ?_⟩
    · exact hsame m (mem_cons_of_mem _ (mem_append_left _ hm))
    · exact hsame m (mem_cons_of_mem _ (mem_append_right _ hm))

section Primitives

variable [DecidableEq N] {n m : N}

omit [DecidableEq N] in
theorem sameCell_setRoot (x : Option N) : SameCell T (T.setRoot x) n := ⟨rfl, rfl, fun _ => rfl⟩

variable {x y : Option N} {path : Path N}

theorem sameCell_setChild {side : Side} (h : n ≠ m) : SameCell T (T.setChild side m x) n :=
  ⟨rfl, rfl, fun _ => if_neg fun heq => h heq.2⟩

theorem sameCell_setParent (h : n ≠ m) : SameCell T (T.setParent m x) n :=
  ⟨if_neg h, rfl, fun _ => rfl⟩

theorem sameCell_setColor {c : Color} (h : n ≠ m) : SameCell T (T.setColor m c) n :=
  ⟨rfl, if_neg h, fun _ => rfl⟩

theorem sameCell_adopt {p : Option N} (h : x ≠ some n) : SameCell T (T.adopt x p) n := by
  cases x with
  | none => exact ⟨rfl, rfl, fun _ => rfl⟩
  | some m => exact sameCell_setParent fun heq => h (congrArg some heq.symm)

@[simp] theorem adopt_root (x p : Option N) : (T.adopt x p).root = T.root := by
  cases x <;> rfl

@[simp] theorem adopt_color (x p : Option N) : (T.adopt x p).color = T.color := by
  cases x <;> rfl

@[simp] theorem adopt_child (x p : Option N) : (T.adopt x p).child = T.child := by
  cases x <;> rfl

/-- The top of a subtree gets another parent. -/
theorem Subtree.adopt {p q : Option N} {t : Node N} (h : T.Subtree p t) (hnodup : (nodes t).Nodup) :
    (T.adopt (pointer t) q).Subtree q t := by
  cases t with
  | null => trivial
  | node c n l r =>
    obtain ⟨-, hcolor, hleft, hright, hl, hr⟩ := h
    obtain ⟨-, hcons, hdisjoint⟩ := nodup_append.mp hnodup
    have hnr : n ∉ nodes r := (nodup_cons.mp hcons).1
    have hnl : n ∉ nodes l := fun hmem => hdisjoint n hmem n mem_cons_self rfl
    refine ⟨if_pos rfl, hcolor, hleft, hright, hl.congr fun m hm => ?_, hr.congr fun m hm => ?_⟩
    · exact sameCell_setParent fun heq => hnl (heq ▸ hm)
    · exact sameCell_setParent fun heq => hnr (heq ▸ hm)

/-- The pointer to what is below these ancestors is set. -/
def hang (path : Path N) (y : Option N) (T : RedBlackTree N) : RedBlackTree N :=
  match path with
  | [] => T.setRoot y
  | frame :: _ => T.setChild frame.side frame.data y

theorem sameCell_hang (h : parentOf path ≠ some n) : SameCell T (T.hang path y) n := by
  cases path with
  | nil => exact sameCell_setRoot y
  | cons frame path => exact sameCell_setChild fun heq => h (congrArg some heq.symm)

@[simp] theorem hang_parent (path : Path N) (y : Option N) : (T.hang path y).parent = T.parent := by
  cases path <;> rfl

@[simp] theorem hang_color (path : Path N) (y : Option N) : (T.hang path y).color = T.color := by
  cases path <;> rfl

/-- The test of the code finds the side of a child. -/
theorem Ancestors.relink_eq {x : N} (h : T.Ancestors (some x) path)
    (hparent : T.parent x = parentOf path) (hx : x ∉ pathNodes path) :
    T.relink x y = T.hang path y := by
  unfold relink
  cases path with
  | nil =>
    rw [show T.parent x = none from hparent]
    rfl
  | cons frame path =>
    obtain ⟨side, c, d, sibling⟩ := frame
    obtain ⟨hchild, -, -, hother, -, -⟩ := h
    have hne : T.child side.other d ≠ some x := fun heq =>
      hx (mem_cons_of_mem _ (mem_append_left _
        (mem_nodes_of_pointer (hother.symm.trans heq))))
    rw [show T.parent x = some d from hparent]
    cases side with
    | left => exact if_pos hchild
    | right => exact if_neg hne

/-- The link to a subtree leads to another one. -/
theorem Ancestors.hang (h : T.Ancestors x path) (hnodup : (pathNodes path).Nodup) :
    (T.hang path y).Ancestors y path := by
  cases path with
  | nil => rfl
  | cons frame path =>
    rw [pathNodes, nodup_cons, mem_append] at hnodup
    obtain ⟨-, hup, hcolor, hother, hsibling, hpath⟩ := h
    refine ⟨if_pos ⟨rfl, rfl⟩, hup, hcolor, ?_, hsibling.congr fun m hm => ?_,
      hpath.congr rfl fun m hm => ?_⟩
    · refine (if_neg fun heq => ?_).trans hother
      cases hside : frame.side <;> simp [hside, Side.other] at heq
    · exact sameCell_setChild fun heq => hnodup.1 (.inl (heq ▸ hm))
    · exact sameCell_setChild fun heq => hnodup.1 (.inr (heq ▸ hm))

end Primitives

/-! ## What a primitive does to the tree -/

section Operations

variable [DecidableEq N] {path : Path N}

theorem Represents.setColor_make {side : Side} {c : Color} {n : N} {near far : Node N} (c' : Color)
    (h : T.Represents (plug (make side c n near far) path)) :
    (T.setColor n c').Represents (plug (make side c' n near far) path) := by
  obtain ⟨hn, hpath, hnodup⟩ := represents_plug.mp h
  obtain ⟨hparent, -, hchild, hother, hnear, hfar⟩ := subtree_make.mp hn
  obtain ⟨hnnear, hnfar, hnpath, hrest⟩ := nodup_make.mp hnodup
  rw [pointer_make] at hpath
  refine represents_plug.mpr ⟨subtree_make.mpr ⟨hparent, if_pos rfl, hchild, hother,
    hnear.congr fun m hm => ?_, hfar.congr fun m hm => ?_⟩, ?_,
    nodup_make.mpr ⟨hnnear, hnfar, hnpath, hrest⟩⟩
  · exact sameCell_setColor fun heq => hnnear (heq ▸ hm)
  · exact sameCell_setColor fun heq => hnfar (heq ▸ hm)
  · rw [pointer_make]
    exact hpath.congr rfl fun m hm => sameCell_setColor fun heq => hnpath (heq ▸ hm)

variable {c : Color} {l r : Node N} {y : N}

theorem Represents.setColor {n : N} (c' : Color) (h : T.Represents (plug (node c n l r) path)) :
    (T.setColor n c').Represents (plug (node c' n l r) path) :=
  @Represents.setColor_make N T _ path .left c n l r c' h

/-- A rotation of the code is the rotation of the subtree. -/
theorem Represents.rotate {side : Side} {c : Node N}
    (h : T.Represents (plug (make side cx x a (make side cy y b c)) path)) :
    ∃ T', T.rotate side x = some T' ∧
      T'.Represents (plug (make side cy y (make side cx x a b) c) path) := by
  obtain ⟨hx, hpath, hnodup⟩ := represents_plug.mp h
  obtain ⟨hxparent, hxcolor, hxnear, hxfar, ha, hy⟩ := subtree_make.mp hx
  obtain ⟨-, hycolor, hynear, hyfar, hb, hc⟩ := subtree_make.mp hy
  rw [pointer_make] at hxfar hpath
  obtain ⟨hxa, hxy, hxpath, hnodup⟩ := nodup_make.mp hnodup
  have hnodup' := (perm_append_comm_assoc _ _ _).nodup_iff.mp hnodup
  obtain ⟨hyb, hyc, hyrest, hnodup'⟩ := nodup_make.mp hnodup'
  simp only [mem_nodes_make, mem_append, not_or] at hxy hyrest
  simp only [nodup_append, mem_append] at hnodup'
  have hparentMem := @mem_pathNodes_of_parentOf N path
  have hpointerMem := @mem_nodes_of_pointer N b
  have hside : ¬side.other = side := by cases side <;> exact fun heq => by cases heq
  unfold RedBlackTree.rotate
  rw [hxfar]
  dsimp only
  rw [hynear]
  -- the near subtree of `y` changes its parent
  generalize hT₁ : T.setChild side.other x (pointer b) = T₁
  have h₁ : ∀ m, m ≠ x → SameCell T T₁ m := fun m hm => hT₁ ▸ sameCell_setChild hm
  have hchild₁ : T₁.child side.other x = pointer b := hT₁ ▸ if_pos ⟨rfl, rfl⟩
  have hnear₁ : T₁.child side x = pointer a :=
    hT₁ ▸ (if_neg fun heq => hside heq.1.symm).trans hxnear
  have hparent₁ : T₁.parent = T.parent := hT₁ ▸ rfl
  have hcolor₁ : T₁.color = T.color := hT₁ ▸ rfl
  rw [show T₁.child side y = pointer b from ((h₁ y (by grind)).child side).trans hynear]
  generalize hT₂ : T₁.adopt (pointer b) (some x) = T₂
  have h₂ : ∀ m, pointer b ≠ some m → SameCell T₁ T₂ m := fun m hm => hT₂ ▸ sameCell_adopt hm
  have hb₂ : T₂.Subtree (some x) b := hT₂ ▸ (hb.congr fun m hm => h₁ m (by grind)).adopt (by grind)
  -- the parent of `x` becomes that of `y`
  have hparent₂ : T₂.parent x = parentOf path := by
    rw [(h₂ x (by grind)).parent, hparent₁, hxparent]
  rw [hparent₂]
  generalize hT₃ : T₂.setParent y (parentOf path) = T₃
  have h₃ : ∀ m, m ≠ y → SameCell T₂ T₃ m := fun m hm => hT₃ ▸ sameCell_setParent hm
  have hparent₃ : T₃.parent x = parentOf path := ((h₃ x (by grind)).parent).trans hparent₂
  have hyparent₃ : T₃.parent y = parentOf path := hT₃ ▸ if_pos rfl
  have hpath₃ : T₃.Ancestors (some x) path := by
    refine hpath.congr ?_ fun m hm => ((h₁ m ?_).trans (h₂ m ?_)).trans (h₃ m ?_)
    · rw [← hT₃, ← hT₂, ← hT₁]
      exact adopt_root _ _
    all_goals grind
  rw [hpath₃.relink_eq hparent₃ hxpath]
  generalize hT₄ : T₃.hang path (some y) = T₄
  have h₄ : ∀ m, parentOf path ≠ some m → SameCell T₃ T₄ m := fun m hm => hT₄ ▸ sameCell_hang hm
  have hpath₄ : T₄.Ancestors (some y) path := hT₄ ▸ hpath₃.hang (by grind)
  -- `x` is below `y`
  generalize hT₅ : T₄.setChild side y (some x) = T₅
  have h₅ : ∀ m, m ≠ y → SameCell T₄ T₅ m := fun m hm => hT₅ ▸ sameCell_setChild hm
  generalize hT₆ : T₅.setParent x (some y) = T₆
  have h₆ : ∀ m, m ≠ x → SameCell T₅ T₆ m := fun m hm => hT₆ ▸ sameCell_setParent hm
  have hlast : ∀ m, m ≠ x → m ≠ y → parentOf path ≠ some m → SameCell T₂ T₆ m :=
    fun m hmx hmy hm => (((h₃ m hmy).trans (h₄ m hm)).trans (h₅ m hmy)).trans (h₆ m hmx)
  have hall : ∀ m, m ≠ x → m ≠ y → pointer b ≠ some m → parentOf path ≠ some m →
      SameCell T T₆ m := fun m hmx hmy hmb hm =>
    ((h₁ m hmx).trans (h₂ m hmb)).trans (hlast m hmx hmy hm)
  have hcolor : T₆.color = T.color := by
    rw [← hT₆, ← hT₅, ← hcolor₁]
    change T₄.color = _
    rw [← hT₄, hang_color, ← hT₃]
    change T₂.color = _
    rw [← hT₂, adopt_color]
  have hyparent : T₆.parent y = parentOf path := by
    rw [(h₆ y (by grind)).parent, ← hT₅]
    change T₄.parent y = _
    rw [← hT₄, hang_parent, hyparent₃]
  have hynear₆ : T₆.child side y = some x := by
    rw [(h₆ y (by grind)).child, ← hT₅]
    exact if_pos ⟨rfl, rfl⟩
  have hyfar₆ : T₆.child side.other y = pointer c := by
    have hy₄ : T₄.child side.other y = T₁.child side.other y := by
      rw [(h₄ y (by grind)).child, ← hT₃]
      change T₂.child side.other y = _
      rw [← hT₂, adopt_child]
    rw [(h₆ y (by grind)).child, ← hT₅, ← hyfar, ← (h₁ y (by grind)).child, ← hy₄]
    exact if_neg fun heq => hside heq.1
  have hxchild : ∀ s, T₆.child s x = T₁.child s x := by
    intro s
    rw [← hT₆]
    change T₅.child s x = _
    rw [(h₅ x (by grind)).child, (h₄ x (by grind)).child, (h₃ x (by grind)).child, ← hT₂,
      adopt_child]
  have hxparent₆ : T₆.parent x = some y := hT₆ ▸ if_pos rfl
  have hpath₆ : T₆.Ancestors (some y) path := by
    refine hpath₄.congr ?_ fun m hm => (h₅ m ?_).trans (h₆ m ?_)
    · rw [← hT₆, ← hT₅]
      rfl
    all_goals grind
  refine ⟨T₆, rfl, represents_plug.mpr ⟨subtree_make.mpr ⟨hyparent, ?_, ?_, hyfar₆,
    subtree_make.mpr ⟨hxparent₆, ?_, (hxchild _).trans hnear₁, (hxchild _).trans hchild₁,
      ha.congr fun m hm => hall m ?_ ?_ ?_ ?_, hb₂.congr fun m hm => hlast m ?_ ?_ ?_⟩,
    hc.congr fun m hm => hall m ?_ ?_ ?_ ?_⟩, ?_, ?_⟩⟩
  · rw [hcolor, hycolor]
  · rw [pointer_make, hynear₆]
  all_goals try grind
  · rw [pointer_make]
    exact hpath₆
  · refine nodup_make.mpr ⟨?_, hyc, hyrest.2, nodup_make.mpr ⟨hxa, hxy.2.1, ?_, ?_⟩⟩
    · rw [mem_nodes_make]
      grind
    · grind
    · simp only [nodup_append]
      grind

/-- A leaf is put where there was none. -/
theorem Represents.link (h : T.Represents (plug null path)) (hz : z ∉ pathNodes path)
    (hchild : ∀ side, T.child side z = none) :
    ((T.setParent z (parentOf path)).hang path (some z)).Represents
      (plug (node (T.color z) z null null) path) := by
  obtain ⟨-, hpath, hnodup⟩ := represents_plug.mp h
  have hparentMem := @mem_pathNodes_of_parentOf N path
  generalize hT₁ : T.setParent z (parentOf path) = T₁
  have hpath₁ : T₁.Ancestors none path := by
    refine hpath.congr (hT₁ ▸ rfl) fun m hm => hT₁ ▸ sameCell_setParent ?_
    exact fun heq => hz (heq ▸ hm)
  have hsame : SameCell T₁ (T₁.hang path (some z)) z := sameCell_hang fun heq => hz (hparentMem heq)
  refine represents_plug.mpr ⟨⟨?_, ?_, ?_, ?_, trivial, trivial⟩, hpath₁.hang hnodup,
    nodup_cons.mpr ⟨hz, hnodup⟩⟩
  · rw [hsame.parent, ← hT₁]
    exact if_pos rfl
  · rw [hsame.color, ← hT₁]
    rfl
  all_goals
    rw [hsame.child, ← hT₁]
    exact hchild _

omit [DecidableEq N] in
theorem Represents.onlyChild (h : T.Represents (plug (node c y l r) path)) :
    T.onlyChild y = pointer (Platform.PODRedBlackTree.onlyChild (node c y l r)) := by
  obtain ⟨⟨-, -, hleft, hright, -, -⟩, -, -⟩ := represents_plug.mp h
  unfold RedBlackTree.onlyChild
  rw [hleft, hright]
  cases l <;> rfl

/-- A node leaves, and its only child takes its place. -/
theorem Represents.unlink {t : Node N} (h : T.Represents (plug (node c y l r) path))
    (hchild : l = null ∨ r = null) (ht : Platform.PODRedBlackTree.onlyChild (node c y l r) = t) :
    ((T.adopt (pointer t) (parentOf path)).relink y (pointer t)).Represents (plug t path) := by
  obtain ⟨⟨hparent, -, -, -, hl, hr⟩, hpath, hnodup⟩ := represents_plug.mp h
  obtain ⟨hsubtree, hperm⟩ : T.Subtree (some y) t ∧ (nodes (node c y l r)).Perm (y :: nodes t) := by
    rcases hchild with rfl | rfl
    · rw [← ht]
      exact ⟨hr, List.Perm.refl _⟩
    · rw [← ht]
      cases l with
      | null => exact ⟨hr, List.Perm.refl _⟩
      | node => exact ⟨hl, perm_append_singleton _ _⟩
  have hnodup' := ((hperm.append_right _).nodup_iff.mp hnodup)
  rw [cons_append, nodup_cons, mem_append] at hnodup'
  obtain ⟨hy, hrest⟩ := hnodup'
  obtain ⟨htNodup, hpathNodup, hdisjoint⟩ := nodup_append.mp hrest
  have hpointerMem := @mem_nodes_of_pointer N t
  have hparentMem := @mem_pathNodes_of_parentOf N path
  generalize hT₁ : T.adopt (pointer t) (parentOf path) = T₁
  have h₁ : ∀ m, pointer t ≠ some m → SameCell T T₁ m := fun m hm => hT₁ ▸ sameCell_adopt hm
  have hsubtree₁ : T₁.Subtree (parentOf path) t := hT₁ ▸ hsubtree.adopt htNodup
  have hpath₁ : T₁.Ancestors (some y) path := by
    refine hpath.congr (hT₁ ▸ adopt_root _ _) fun m hm => h₁ m ?_
    grind
  have hparent₁ : T₁.parent y = parentOf path := ((h₁ y (by grind)).parent).trans hparent
  rw [hpath₁.relink_eq hparent₁ fun hmem => hy (.inr hmem)]
  refine represents_plug.mpr ⟨hsubtree₁.congr fun m hm => sameCell_hang ?_, hpath₁.hang hpathNodup,
    hrest⟩
  grind

/-- Another node takes the place of a node with all its links. -/
theorem Represents.replace {z : N} (h : T.Represents (plug (node c z l r) path))
    (hy : y ∉ nodes (plug (node c z l r) path)) :
    (T.replace z y).Represents (plug (node c y l r) path) := by
  obtain ⟨⟨hparent, hcolor, hleft, hright, hl, hr⟩, hpath, hnodup⟩ := represents_plug.mp h
  rw [(nodes_plug_perm path _).mem_iff] at hy
  have hy' : y ∉ nodes (make .left c z l r) ++ pathNodes path := hy
  obtain ⟨hzl, hzr, hzpath, hrest⟩ := nodup_node.mp hnodup
  rw [mem_append, mem_nodes_make] at hy'
  have hlMem := @mem_nodes_of_pointer N l
  have hrMem := @mem_nodes_of_pointer N r
  have hparentMem := @mem_pathNodes_of_parentOf N path
  simp only [nodup_append] at hrest
  unfold RedBlackTree.replace
  rw [hparent, hcolor]
  -- `y` gets the fields of `z`
  generalize hT₁ : (T.setParent y (parentOf path)).setColor y c = T₁
  have h₁ : ∀ m, m ≠ y → SameCell T T₁ m := fun m hm =>
    hT₁ ▸ (sameCell_setParent hm).trans (sameCell_setColor hm)
  have hyparent₁ : T₁.parent y = parentOf path := hT₁ ▸ if_pos rfl
  have hycolor₁ : T₁.color y = c := hT₁ ▸ if_pos rfl
  have hroot₁ : T₁.root = T.root := hT₁ ▸ rfl
  dsimp only
  rw [((h₁ z (by grind)).child .left).trans hleft, ((h₁ z (by grind)).child .right).trans hright]
  generalize hT₂ : (T₁.setChild .left y (pointer l)).setChild .right y (pointer r) = T₂
  have h₂ : ∀ m, m ≠ y → SameCell T₁ T₂ m := fun m hm =>
    hT₂ ▸ (sameCell_setChild hm).trans (sameCell_setChild hm)
  have hyleft₂ : T₂.child .left y = pointer l := by
    rw [← hT₂]
    simp [setChild]
  have hyright₂ : T₂.child .right y = pointer r := hT₂ ▸ if_pos ⟨rfl, rfl⟩
  have hy₂ : T₂.parent y = parentOf path ∧ T₂.color y = c := hT₂ ▸ ⟨hyparent₁, hycolor₁⟩
  have hroot₂ : T₂.root = T.root := by
    rw [← hroot₁, ← hT₂]
    rfl
  have h₁₂ : ∀ m, m ≠ y → SameCell T T₂ m := fun m hm => (h₁ m hm).trans (h₂ m hm)
  rw [((h₁₂ z (by grind)).child .left).trans hleft, ((h₁₂ z (by grind)).child .right).trans hright]
  -- the children of `z` become those of `y`
  generalize hT₃ : T₂.adopt (pointer l) (some y) = T₃
  have h₃ : ∀ m, pointer l ≠ some m → SameCell T₂ T₃ m := fun m hm => hT₃ ▸ sameCell_adopt hm
  have hl₃ : T₃.Subtree (some y) l := hT₃ ▸ (hl.congr fun m hm => h₁₂ m (by grind)).adopt (by grind)
  generalize hT₄ : T₃.adopt (pointer r) (some y) = T₄
  have h₄ : ∀ m, pointer r ≠ some m → SameCell T₃ T₄ m := fun m hm => hT₄ ▸ sameCell_adopt hm
  have hr₄ : T₄.Subtree (some y) r :=
    hT₄ ▸ (hr.congr fun m hm => (h₁₂ m (by grind)).trans (h₃ m (by grind))).adopt (by grind)
  have h₂₄ : ∀ m, pointer l ≠ some m → pointer r ≠ some m → SameCell T₂ T₄ m :=
    fun m hml hmr => (h₃ m hml).trans (h₄ m hmr)
  have hpath₄ : T₄.Ancestors (some z) path := by
    refine hpath.congr ?_ fun m hm => (h₁₂ m ?_).trans (h₂₄ m ?_ ?_)
    · rw [← hT₄, ← hT₃, adopt_root, adopt_root, hroot₂]
    all_goals grind
  have hparent₄ : T₄.parent z = parentOf path := by
    rw [(h₂₄ z (by grind) (by grind)).parent, (h₁₂ z (by grind)).parent, hparent]
  rw [hpath₄.relink_eq hparent₄ hzpath]
  have h₅ : ∀ m, parentOf path ≠ some m → SameCell T₄ (T₄.hang path (some y)) m :=
    fun m hm => sameCell_hang hm
  have hy₅ : SameCell T₂ (T₄.hang path (some y)) y :=
    (h₂₄ y (by grind) (by grind)).trans (h₅ y (by grind))
  refine represents_plug.mpr ⟨⟨hy₅.parent.trans hy₂.1, hy₅.color.trans hy₂.2,
    (hy₅.child _).trans hyleft₂, (hy₅.child _).trans hyright₂,
    hl₃.congr fun m hm => (h₄ m ?_).trans (h₅ m ?_), hr₄.congr fun m hm => h₅ m ?_⟩,
    hpath₄.hang (by grind), nodup_node.mpr ⟨?_, ?_, ?_, ?_⟩⟩
  all_goals grind

end Operations

end RedBlackTree

end WTF
end WebKit
