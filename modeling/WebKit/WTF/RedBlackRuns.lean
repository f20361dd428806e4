import WebKit.WTF.RedBlackFixups

/-!
# Runs of a red-black tree

* `insert_spec`, `remove_spec`: an operation on the links does what the function on trees does, and
  follows no null pointer.
* `findLeast_spec`: the search.
* `redBlackTree_of_run`: what holds after any run from the empty tree.
-/

namespace WebKit

open List Platform.PODRedBlackTree
namespace WTF

open Platform (Color Side Node Frame Path Element View Balanced BalancedPath)
open Platform.Node (null node make)
open Platform.PODRedBlackTree (plug)

variable {N κ : Type*} [LinearOrder κ] [DecidableEq N] {key : N → κ}

theorem summarised_linked (t : Node N) : (linkedView key).Summarised t := by
  induction t with
  | null => trivial
  | node c n l r ihl ihr => exact ⟨ihl, ihr, rfl⟩

theorem summarisedPath_linked : ∀ (path : Path N) (keys : List N),
    (linkedView key).SummarisedPath path keys
  | [], _ => trivial
  | frame :: path, _ => ⟨summarised_linked frame.sibling, rfl, summarisedPath_linked path _⟩

theorem propagateUpdates_linked : ∀ (path : Path N) (t : Node N),
    propagateUpdates (linked key) t path = path
  | [], _ => rfl
  | ⟨.left, _, _, _⟩ :: _, _ => rfl
  | ⟨.right, _, _, _⟩ :: _, _ => rfl

omit [DecidableEq N] [LinearOrder κ] in
/-- A node of a tree has a place in it. -/
theorem exists_plug : ∀ {t : Node N}, z ∈ nodes t →
    ∃ c l r path, plug (node c z l r) path = t
  | null, h => by cases h
  | node c n l r, h => by
    rcases mem_append.mp h with h | h
    · obtain ⟨c', l', r', path, hplug⟩ := exists_plug h
      refine ⟨c', l', r', path ++ [⟨.left, c, n, r⟩], ?_⟩
      rw [View.plug_append, hplug]
      rfl
    · rcases mem_cons.mp h with rfl | h
      · exact ⟨c, l, r, [], rfl⟩
      · obtain ⟨c', l', r', path, hplug⟩ := exists_plug h
        refine ⟨c', l', r', path ++ [⟨.right, c, n, l⟩], ?_⟩
        rw [View.plug_append, hplug]
        rfl

omit [DecidableEq N] [LinearOrder κ] in
theorem length_le_pathNodes : ∀ path : Path N, path.length ≤ (pathNodes path).length
  | [] => Nat.zero_le _
  | frame :: path => by
    have ih := length_le_pathNodes path
    rw [pathNodes, length_cons, length_cons, length_append]
    omega

omit [DecidableEq N] [LinearOrder κ] in
theorem length_le_nodes (path : Path N) (t : Node N) :
    path.length + (nodes t).length ≤ (nodes (plug t path)).length := by
  rw [(nodes_plug_perm path t).length_eq, length_append]
  have hpath := length_le_pathNodes path
  omega

namespace RedBlackTree

variable {T T' : RedBlackTree N}

/-! ## Insertion -/

variable {root l r : Node N} {fuel m : ℕ} {x z : N} {c : Color} {path : Path N}

omit [DecidableEq N] in
theorem Represents.congr (h : T.Represents root) (hroot : T'.root = T.root)
    (hsame : ∀ n ∈ nodes root, SameCell T T' n) : T'.Represents root :=
  ⟨hroot.trans h.root_eq, h.subtree.congr hsame, h.nodup⟩

variable (key) in
/-- The loop of `treeInsert` ends at the place of the new node. -/
theorem place_spec (x : N) : ∀ {t : Node N} {path : Path N} {fuel : ℕ},
    T.Represents (plug t path) → (nodes t).length < fuel →
      place key (key x) T fuel (pointer t) (parentOf path) =
        some (parentOf (Platform.PODRedBlackTree.treeInsert (linked key) x t path))
  | null, path, fuel + 1, _, _ => by
    rfl
  | node c n l r, path, fuel + 1, h, hfuel => by
    have hlength : (nodes (node c n l r)).length = (nodes l).length + (nodes r).length + 1 := by
      simp [nodes, Node.keys]
      omega
    have hcell : T.Cell .left c n l r path := Represents.cell h
    rw [show pointer (node c n l r) = some n from rfl, place, Platform.PODRedBlackTree.treeInsert]
    by_cases hless : key x < key n
    · have hdown : T.Represents (plug l (⟨.left, c, n, r⟩ :: path)) := h
      have hlinked : (linked key).less x n = true := decide_eq_true hless
      rw [if_pos hless, if_pos hlinked, hcell.child]
      exact place_spec x hdown (by omega)
    · have hdown : T.Represents (plug r (⟨.right, c, n, l⟩ :: path)) := h
      have hlinked : ¬(linked key).less x n = true := fun hlt => hless (of_decide_eq_true hlt)
      rw [if_neg hless, if_neg hlinked, show T.child .right n = pointer r from hcell.other]
      exact place_spec x hdown (by omega)

variable (key) in
/-- The place of the new node is on the side where it was compared to. -/
theorem side_treeInsert (x : N) : ∀ {t : Node N} {path : Path N},
    (∀ frame ∈ path.head?, frame.side = if key x < key frame.data then .left else .right) →
      ∀ frame ∈ (Platform.PODRedBlackTree.treeInsert (linked key) x t path).head?,
        frame.side = if key x < key frame.data then .left else .right
  | null, _, h => h
  | node c n l r, path, h => by
    rw [Platform.PODRedBlackTree.treeInsert]
    split
    · rename_i hless
      refine side_treeInsert x fun frame hframe => ?_
      obtain rfl := Option.some.inj hframe
      exact (if_pos (of_decide_eq_true hless)).symm
    · rename_i hless
      refine side_treeInsert x fun frame hframe => ?_
      obtain rfl := Option.some.inj hframe
      exact (if_neg fun hlt => hless (decide_eq_true hlt)).symm

variable (key) in
theorem treeInsert_spec (h : T.Represents root) (hx : x ∉ nodes root)
    (hchild : ∀ side, T.child side x = none) (hfuel : (nodes root).length < fuel) :
    ∃ T', T.treeInsert key fuel x = some T' ∧ T'.Represents (plug (node (T.color x) x null null)
      (Platform.PODRedBlackTree.treeInsert (linked key) x root [])) := by
  have hplug := View.plug_treeInsert (E := linked key) x root []
  have hempty : T.Represents (plug root []) := h
  have hplace := place_spec key x hempty hfuel
  have hside := @side_treeInsert N κ _ _ key x root [] fun frame hframe => by cases hframe
  generalize Platform.PODRedBlackTree.treeInsert (linked key) x root [] = path
    at hplug hplace hside ⊢
  subst hplug
  have hxpath : x ∉ pathNodes path := fun hmem =>
    hx ((nodes_plug_perm path null).mem_iff.mpr (mem_append_right _ hmem))
  refine ⟨_, ?_, h.link hxpath hchild⟩
  unfold RedBlackTree.treeInsert
  rw [h.root_eq]
  change place key (key x) T fuel _ none = _ at hplace
  rw [hplace]
  cases path with
  | nil => rfl
  | cons frame path =>
    change some _ = some _
    rw [← hside frame rfl]
    rfl

theorem Represents.reset (h : T.Represents root) (hx : x ∉ nodes root) :
    (T.reset x).Represents root := by
  refine h.congr rfl fun n hn => ?_
  have hne : n ≠ x := fun heq => hx (heq ▸ hn)
  exact (((sameCell_setChild hne).trans (sameCell_setChild hne)).trans
    (sameCell_setParent hne)).trans (sameCell_setColor hne)

theorem reset_child (x : N) (side : Side) : (T.reset x).child side x = none := by
  cases side <;> simp [RedBlackTree.reset, setChild, setParent, RedBlackTree.setColor]

/-- An insertion is that of the functions on trees. -/
theorem insert_spec (h : T.Represents root) (hbalanced : Balanced root .Black m)
    (hsorted : (nodes root).Pairwise fun a b => key a ≤ key b) (hx : x ∉ nodes root)
    (hfuel : (nodes root).length < fuel) :
    ∃ T' root' m', T.insert key fuel x = some T' ∧ T'.Represents root' ∧
      Balanced root' .Black m' ∧ ((nodes root').Pairwise fun a b => key a ≤ key b) ∧
        (nodes root').Perm (x :: nodes root) := by
  obtain ⟨root', m', hinsert, hbalanced', -, hsorted', hperm⟩ :=
    View.insertNode_spec (V := linkedView key) hbalanced (summarised_linked root) hsorted x
  obtain ⟨T₁, hplaced, hT₁⟩ := treeInsert_spec key (h.reset hx) hx (reset_child x) hfuel
  have hplug : plug null (Platform.PODRedBlackTree.treeInsert (linked key) x root []) = root :=
    View.plug_treeInsert x root []
  have hlength := length_le_nodes
    (Platform.PODRedBlackTree.treeInsert (linked key) x root []) (null : Node N)
  rw [hplug] at hlength
  unfold insertNode at hinsert
  rw [updateNode_linked] at hinsert
  dsimp only at hinsert
  generalize Platform.PODRedBlackTree.treeInsert (linked key) x root [] = path
    at hT₁ hlength hinsert
  cases hfixup : Platform.PODRedBlackTree.insertFixup (linked key) (node .Red x null null)
      path with
  | none =>
    rw [hfixup] at hinsert
    cases hinsert
  | some result =>
    obtain ⟨t, path'⟩ := result
    rw [hfixup] at hinsert
    dsimp only at hinsert
    rw [propagateUpdates_linked] at hinsert
    obtain rfl := Option.some.inj hinsert
    have hshort : path.length < fuel := by omega
    obtain ⟨T₂, hloop, hT₂⟩ := insertFixup_refines (hT₁.setColor .Red) hshort hfixup
    obtain ⟨r, hr⟩ : ∃ r, pointer (plug t path') = some r := by
      cases hnull : plug t path' with
      | null =>
        rw [hnull] at hperm
        exact absurd hperm.length_eq (by simp [Node.setColor, View.keys, Node.keys])
      | node c n l r => exact ⟨n, rfl⟩
    have hpainted : T₂.Represents (plug (plug t path') []) := hT₂
    refine ⟨T₂.setColor r .Black, _, m', ?_, ?_, hbalanced', hsorted', hperm⟩
    · unfold RedBlackTree.insert
      rw [hplaced]
      dsimp only
      rw [hloop]
      dsimp only
      rw [hT₂.root_eq, hr]
    · have hpaint := hpainted.paintBlack
      rw [hr] at hpaint
      exact hpaint

/-! ## Removal -/

omit [DecidableEq N] in
/-- The loop of `treeMinimum` ends at the minimum. -/
theorem treeMinimum_refines : ∀ {t : Node N} {n : N} {p : Option N} {fuel : ℕ} (path : Path N),
    T.Subtree p t → pointer t = some n → (nodes t).length < fuel →
      ∃ c y l r, (Platform.PODRedBlackTree.treeMinimum t path).1 = node c y l r ∧
        T.treeMinimum .left fuel n = some y
  | null, _, _, _, _, _, hn, _ => by cases hn
  | node c m null r, n, p, fuel + 1, path, h, hn, _ => by
    obtain rfl := Option.some.inj hn
    refine ⟨c, m, null, r, rfl, ?_⟩
    rw [treeMinimum, show T.child .left m = none from h.2.2.1]
  | node c m (node c' m' l' r') r, n, p, fuel + 1, path, h, hn, hfuel => by
    obtain rfl := Option.some.inj hn
    obtain ⟨-, -, hleft, -, hl, -⟩ := h
    have hlength : (nodes (node c' m' l' r')).length < fuel := by
      have hall : (nodes (node c m (node c' m' l' r') r)).length =
          (nodes (node c' m' l' r')).length + ((nodes r).length + 1) := length_append
      omega
    obtain ⟨cy, y, yl, yr, hmin, hwalk⟩ :=
      treeMinimum_refines (⟨.left, c, m, r⟩ :: path) hl rfl hlength
    refine ⟨cy, y, yl, yr, hmin, ?_⟩
    rw [treeMinimum, show T.child .left m = some m' from hleft]
    exact hwalk

theorem unlink_refines {x : Node N} (h : T.Represents (plug x path)) (hfuel : path.length < fuel)
    (hunlink : unlink (linked key) c x path = some root) :
    ∃ T', (if c = .Black then removeFixup fuel (pointer x) (parentOf path) T else some T) =
      some T' ∧ T'.Represents root := by
  cases c with
  | Red =>
    obtain rfl := Option.some.inj hunlink
    exact ⟨T, rfl, h⟩
  | Black => exact removeFixup_refines h hfuel hunlink

omit [DecidableEq N] [LinearOrder κ] in
theorem nodes_node (c : Color) (z : N) (l r : Node N) :
    nodes (node c z l r) = nodes l ++ z :: nodes r := rfl

omit [DecidableEq N] [LinearOrder κ] in
theorem nodes_plug (path : Path N) (t : Node N) :
    nodes (plug t path) = path.before id ++ nodes t ++ path.after id :=
  Platform.keys_plug id path t

/-- The tree without a node, when its two children are joined. -/
theorem erase_plug (hnodup : (nodes (plug (node c z l r) path)).Nodup) :
    (nodes (plug (node c z l r) path)).erase z =
      path.before id ++ (nodes l ++ nodes r) ++ path.after id := by
  have hsplit : nodes (plug (node c z l r) path) =
      (path.before id ++ nodes l) ++ z :: (nodes r ++ path.after id) := by
    rw [nodes_plug, nodes_node]
    simp only [append_assoc, cons_append]
  rw [hsplit] at hnodup ⊢
  have hz : z ∉ path.before id ++ nodes l := fun hmem =>
    (nodup_append.mp hnodup).2.2 z hmem z mem_cons_self rfl
  rw [erase_append_right _ hz, erase_cons_head]
  simp only [append_assoc]

omit [DecidableEq N] [LinearOrder κ] in
theorem Balanced.replace (h : Balanced (plug (node c z l r) path) .Black m) :
    ∃ m', Balanced (plug (node c y l r) path) .Black m' := by
  obtain ⟨c', m', hz, hpath⟩ := Balanced.of_plug h
  have hy : Balanced (node c y l r) c' m' := by
    cases hz with
    | red hl hr => exact .red hl hr
    | black hl hr => exact .black hl hr
  exact hpath.plug hy

/-- A node with at most one child is unlinked, and the colors are restored. -/
theorem detach_spec (h : T.Represents (plug (node c y l r) path))
    (hchild : l = null ∨ r = null) (hbalanced : Balanced (plug (node c y l r) path) .Black m)
    (hfuel : (nodes (plug (node c y l r) path)).length < fuel) :
    ∃ T' root' m', (if T.color y = .Black then
        removeFixup fuel (T.onlyChild y) (T.parent y)
          ((T.adopt (T.onlyChild y) (T.parent y)).relink y (T.onlyChild y))
      else some ((T.adopt (T.onlyChild y) (T.parent y)).relink y (T.onlyChild y))) = some T' ∧
        T'.Represents root' ∧ Balanced root' .Black m' ∧
          nodes root' = (nodes (plug (node c y l r) path)).erase y := by
  have hcell : T.Cell .left c y l r path := Represents.cell h
  obtain ⟨c', n, hy, hpath⟩ := Balanced.of_plug hbalanced
  obtain ⟨root', m', hunlink, hbalanced', -, hkeys⟩ := View.unlink_spec
    (V := linkedView fun _ : N => 0) hy
    hchild hpath (summarised_linked _) (summarisedPath_linked path _)
  have hshort : path.length < fuel := by
    have hlength := length_le_nodes path (node c y l r)
    omega
  obtain ⟨T', hloop, hT'⟩ := unlink_refines (h.unlink hchild rfl) hshort hunlink
  refine ⟨T', root', m', ?_, hT', hbalanced', ?_⟩
  · rw [hcell.color, hcell.parent, h.onlyChild]
    exact hloop
  · rw [erase_plug h.nodup]
    exact hkeys.trans (congrArg (path.around id) 
      (View.keys_onlyChild (V := linkedView fun _ : N => 0) hchild))

/-- A removal takes exactly the given node out of the order. -/
theorem remove_spec (h : T.Represents root) (hbalanced : Balanced root .Black m)
    (hz : z ∈ nodes root) (hfuel : (nodes root).length < fuel) :
    ∃ T' root' m', T.remove fuel z = some T' ∧ T'.Represents root' ∧
      Balanced root' .Black m' ∧ nodes root' = (nodes root).erase z := by
  obtain ⟨c, l, r, path, rfl⟩ := exists_plug hz
  have hcell : T.Cell .left c z l r path := Represents.cell h
  have hright : T.child .right z = pointer r := hcell.other
  by_cases hchild : l = null ∨ r = null
  · -- the node itself is unlinked
    have hunlinked : T.unlinked fuel z = some z := by
      unfold unlinked
      rw [hcell.child, hright]
      refine if_pos ?_
      rcases hchild with rfl | rfl
      · exact .inl rfl
      · exact .inr rfl
    obtain ⟨T', root', m', hdetach, hT', hbalanced', hnodes⟩ := detach_spec h hchild hbalanced hfuel
    refine ⟨T', root', m', ?_, hT', hbalanced', hnodes⟩
    unfold RedBlackTree.remove
    rw [hunlinked]
    dsimp only
    rw [if_pos rfl]
    exact hdetach
  · -- the successor is unlinked, and takes the place of the node
    obtain ⟨hl, hr⟩ := not_or.mp hchild
    obtain ⟨cy, y, yr, inner, hmin, hplug, hbefore⟩ := View.treeMinimum_spec id r [] hr
    obtain ⟨n, hn⟩ : ∃ n, pointer r = some n := by
      cases r with
      | null => exact absurd rfl hr
      | node c n l r => exact ⟨n, rfl⟩
    have hy : plug (node cy y null yr) (inner ++ ⟨.right, c, z, l⟩ :: path) =
        plug (node c z l r) path := by
      rw [View.plug_append, hplug]
      rfl
    have hunlinked : T.unlinked fuel z = some y := by
      obtain ⟨-, -, -, -, -, hsubtree⟩ := (represents_plug.mp h).1
      have hlength := length_le_nodes path (node c z l r)
      have hshort : (nodes r).length < fuel := by
        rw [nodes_node, length_append, length_cons] at hlength
        omega
      obtain ⟨c', y', l', r', hmin', hwalk⟩ := treeMinimum_refines [] hsubtree hn hshort
      rw [hmin] at hmin'
      cases hmin'
      unfold unlinked successor
      rw [hcell.child, hright, if_neg]
      · rw [show T.child Side.left.other z = some n from hright.trans hn]
        dsimp only
        rw [hwalk]
        rfl
      · rintro (hnull | hnull)
        · cases l with
          | null => exact hl rfl
          | node => cases hnull
        · rw [hn] at hnull
          cases hnull
    obtain ⟨T₁, root₁, m₁, hdetach, hT₁, hbalanced₁, hnodes₁⟩ :=
      detach_spec (hy.symm ▸ h) (.inl rfl) (hy.symm ▸ hbalanced) (hy.symm ▸ hfuel)
    rw [hy] at hnodes₁
    -- the order around the node and its successor
    have horder : nodes (plug (node c z l r) path) = (path.before id ++ nodes l) ++ z ::
        y :: (nodes yr ++ (inner.after id ++ path.after id)) := by
      rw [nodes_plug, nodes_node, ← hplug, nodes_plug, hbefore]
      simp [nodes, Node.keys]
    have hnodup := h.nodup
    rw [horder] at hnodup hnodes₁ ⊢
    generalize path.before id ++ nodes l = before at hnodup hnodes₁ ⊢
    generalize nodes yr ++ (inner.after id ++ path.after id) = after at hnodup hnodes₁ ⊢
    have hne : y ≠ z ∧ z ∉ before ∧ y ∉ before ∧ y ∉ after := by
      simp only [nodup_append] at hnodup
      grind
    have herased : nodes root₁ = before ++ z :: after := by
      rw [hnodes₁, erase_append_right _ hne.2.2.1, erase_cons_tail (by
        simpa using hne.1.symm), erase_cons_head]
    obtain ⟨c₂, l₂, r₂, path₂, rfl⟩ := exists_plug (t := root₁) (z := z) (by
      rw [herased]
      exact mem_append_right _ mem_cons_self)
    have hyOut : y ∉ nodes (plug (node c₂ z l₂ r₂) path₂) := by
      rw [herased, mem_append, mem_cons]
      rintro (hmem | heq | hmem)
      · exact hne.2.2.1 hmem
      · exact hne.1 heq
      · exact hne.2.2.2 hmem
    obtain ⟨m', hbalanced'⟩ := Balanced.replace (y := y) hbalanced₁
    refine ⟨_, _, m', ?_, hT₁.replace hyOut, hbalanced', ?_⟩
    · unfold RedBlackTree.remove
      rw [hunlinked]
      dsimp only
      rw [if_neg hne.1, hdetach]
      rfl
    · have hsame : (path₂.before id ++ nodes l₂) ++ z :: (nodes r₂ ++ path₂.after id) =
          before ++ z :: after := by
        rw [← herased, nodes_plug, nodes_node]
        simp only [append_assoc, cons_append]
      have hzafter : z ∉ after := by
        simp only [nodup_append, nodup_cons] at hnodup
        grind
      obtain ⟨hbefore₂, -, hafter₂⟩ := (append_cons_inj_of_notMem hne.2.1 hzafter).mp hsame.symm
      rw [erase_append_right _ hne.2.1, erase_cons_head, hbefore₂, hafter₂, nodes_plug, nodes_node]
      simp only [append_assoc, cons_append]

/-! ## Searching -/

variable (key) in
/-- A node of the least key that is not less than `k`, or null when all keys are less. -/
def IsLeastGreaterThanOrEqual (k : κ) (s : List N) : Option N → Prop
  | none => ∀ m ∈ s, key m < k
  | some n => n ∈ s ∧ k ≤ key n ∧ ∀ m ∈ s, k ≤ key m → key n ≤ key m

omit [DecidableEq N] in
/-- The loop ends with the candidate so far, or with a better one below. -/
theorem findLeast_spec (k : κ) : ∀ {t : Node N} {p : Option N} (best : Option N) {fuel : ℕ},
    T.Subtree p t →
    ((nodes t).Pairwise fun a b => key a ≤ key b) → (nodes t).length < fuel →
      ∃ r, findLeast key k T fuel (pointer t) best = some r ∧
        (r = best ∧ IsLeastGreaterThanOrEqual key k (nodes t) none ∨
          ∃ n, r = some n ∧ IsLeastGreaterThanOrEqual key k (nodes t) (some n))
  | null, _, best, fuel + 1, _, _, _ => by
    exact ⟨best, rfl, .inl ⟨rfl, fun m hm => by cases hm⟩⟩
  | node c n l r, _, best, fuel + 1, h, hsorted, hfuel => by
    obtain ⟨-, -, hleft, hright, hl, hr⟩ := h
    rw [nodes_node, pairwise_append, pairwise_cons] at hsorted
    obtain ⟨hsortedL, ⟨hnr, hsortedR⟩, hcross⟩ := hsorted
    have hln : ∀ m ∈ nodes l, key m ≤ key n := fun m hm => hcross m hm n mem_cons_self
    rw [nodes_node, length_append, length_cons] at hfuel
    have hmem : ∀ m, m ∈ nodes (node c n l r) ↔ m ∈ nodes l ∨ m = n ∨ m ∈ nodes r := by
      intro m
      rw [nodes_node, mem_append, mem_cons]
    rw [show pointer (node c n l r) = some n from rfl, findLeast]
    by_cases heq : key n = k
    · rw [if_pos heq]
      refine ⟨some n, rfl, .inr ⟨n, rfl, (hmem n).mpr (.inr (.inl rfl)), heq.ge, fun m _ hm => ?_⟩⟩
      exact heq.le.trans hm
    · rw [if_neg heq]
      by_cases hlt : key n < k
      · -- what is not less than `k` is to the right
        rw [if_pos hlt, hright]
        have hless : ∀ m, m ∈ nodes l ∨ m = n → key m < k := by
          rintro m (hm | rfl)
          · exact (hln m hm).trans_lt hlt
          · exact hlt
        obtain ⟨r', hfind, ⟨rfl, hnone⟩ | ⟨m, rfl, hm, hkm, hleast⟩⟩ :=
          findLeast_spec k best hr hsortedR (show (nodes r).length < fuel by omega)
        · refine ⟨_, hfind, .inl ⟨rfl, fun m hm => ?_⟩⟩
          rcases (hmem m).mp hm with hm | hm | hm
          · exact hless m (.inl hm)
          · exact hless m (.inr hm)
          · exact hnone m hm
        · refine ⟨_, hfind, .inr ⟨m, rfl, (hmem m).mpr (.inr (.inr hm)), hkm, fun m' hm' hk => ?_⟩⟩
          rcases (hmem m').mp hm' with hm' | hm' | hm'
          · exact absurd hk (hless m' (.inl hm')).not_ge
          · exact absurd hk (hless m' (.inr hm')).not_ge
          · exact hleast m' hm' hk
      · -- the node is a candidate, and a better one is to the left
        have hkn : k ≤ key n := not_lt.mp hlt
        rw [if_neg hlt, hleft]
        obtain ⟨r', hfind, ⟨rfl, hnone⟩ | ⟨m, rfl, hm, hkm, hleast⟩⟩ :=
          findLeast_spec k (some n) hl hsortedL (show (nodes l).length < fuel by omega)
        · refine ⟨_, hfind, .inr ⟨n, rfl, (hmem n).mpr (.inr (.inl rfl)), hkn, fun m hm hk => ?_⟩⟩
          rcases (hmem m).mp hm with hm | rfl | hm
          · exact absurd hk (hnone m hm).not_ge
          · exact le_rfl
          · exact hnr m hm
        · refine ⟨_, hfind, .inr ⟨m, rfl, (hmem m).mpr (.inl hm), hkm, fun m' hm' hk => ?_⟩⟩
          rcases (hmem m').mp hm' with hm' | rfl | hm'
          · exact hleast m' hm' hk
          · exact hln m hm
          · exact (hln m hm).trans (hnr m' hm')

/-! ## Runs -/

omit [DecidableEq N] in
/-- The parent pointers are the inverse of the child pointers. -/
theorem Represents.parent_iff (h : T.Represents root) (ha : a ∈ nodes root)
    (hb : b ∈ nodes root) : T.parent b = some a ↔ ∃ side, T.child side a = some b := by
  constructor
  · intro hparent
    obtain ⟨c, l, r, path, rfl⟩ := exists_plug hb
    have hup : T.parent b = parentOf path := (represents_plug.mp h).1.1
    cases path with
    | nil =>
      rw [hup] at hparent
      cases hparent
    | cons frame path =>
      rw [hup] at hparent
      obtain rfl := Option.some.inj hparent
      exact ⟨frame.side, h.cell_frame.child⟩
  · rintro ⟨side, hchild⟩
    obtain ⟨c, l, r, path, rfl⟩ := exists_plug ha
    obtain ⟨-, -, hleft, hright, hl, hr⟩ := (represents_plug.mp h).1
    cases side with
    | left => exact hl.parent_eq (hleft.symm.trans hchild)
    | right => exact hr.parent_eq (hright.symm.trans hchild)

end RedBlackTree

inductive Operation (N : Type*)
  | insert (x : N)
  | remove (z : N)
  deriving DecidableEq

namespace Operation

/-- The nodes that are inserted and not removed. -/
def present (s : List N) : Operation N → List N
  | insert x => x :: s
  | remove z => s.erase z

/-- A node is inserted once, and removed while it is in the tree. -/
def Allowed (s : List N) : Operation N → Prop
  | insert x => x ∉ s
  | remove z => z ∈ s

instance (s : List N) (op : Operation N) : Decidable (op.Allowed s) :=
  match op with
  | insert x => inferInstanceAs (Decidable (x ∉ s))
  | remove z => inferInstanceAs (Decidable (z ∈ s))

def run (key : N → κ) (fuel : ℕ) (T : RedBlackTree N) : Operation N → Option (RedBlackTree N)
  | insert x => T.insert key fuel x
  | remove z => T.remove fuel z

end Operation

def presentAfter (ops : List (Operation N)) : List N := ops.foldl Operation.present []

/-- Each operation is allowed when its turn comes. -/
def AllAllowed : List N → List (Operation N) → Prop
  | _, [] => True
  | s, op :: ops => op.Allowed s ∧ AllAllowed (op.present s) ops

def runAll (key : N → κ) (fuel : ℕ) (T : RedBlackTree N) (ops : List (Operation N)) :
    Option (RedBlackTree N) := ops.foldlM (fun T op => op.run key fuel T) T

/-- The tree `root` is behind the links, it is balanced and sorted, and it holds these nodes. -/
structure Holds (key : N → κ) (T : RedBlackTree N) (root : Node N) (s : List N) : Prop where
  represents : T.Represents root
  balanced : ∃ n, Balanced root .Black n
  sorted : (nodes root).Pairwise fun a b => key a ≤ key b
  perm : (nodes root).Perm s

/-- What an operation keeps. -/
theorem Holds.step {op : Operation N}
    (h : Holds key T root s) (hop : op.Allowed s) (hfuel : s.length < fuel) :
    ∃ T' root', op.run key fuel T = some T' ∧ Holds key T' root' (op.present s) := by
  obtain ⟨n, hbalanced⟩ := h.balanced
  have hlength : (nodes root).length < fuel := h.perm.length_eq ▸ hfuel
  cases op with
  | insert x =>
    obtain ⟨T', root', n', hrun, hT', hbalanced', hsorted', hperm⟩ := RedBlackTree.insert_spec
      h.represents hbalanced h.sorted (fun hmem => hop (h.perm.mem_iff.mp hmem)) hlength
    exact ⟨T', root', hrun, hT', ⟨n', hbalanced'⟩, hsorted', hperm.trans (h.perm.cons x)⟩
  | remove z =>
    obtain ⟨T', root', n', hrun, hT', hbalanced', hnodes⟩ := RedBlackTree.remove_spec
      h.represents hbalanced (h.perm.mem_iff.mpr hop) hlength
    refine ⟨T', root', hrun, hT', ⟨n', hbalanced'⟩, ?_, ?_⟩
    · rw [hnodes]
      exact h.sorted.sublist erase_sublist
    · rw [hnodes]
      exact h.perm.erase z

theorem Operation.length_present (s : List N) (op : Operation N) :
    (op.present s).length ≤ s.length + 1 := by
  cases op with
  | insert x => exact le_rfl
  | remove z =>
    have hle : (s.erase z).length ≤ s.length := erase_sublist.length_le
    exact Nat.le_succ_of_le hle

theorem length_foldl_present : ∀ (ops : List (Operation N)) (s : List N),
    (ops.foldl Operation.present s).length ≤ s.length + ops.length
  | [], s => le_rfl
  | op :: ops, s => by
    have hstep := op.length_present s
    have hrest := length_foldl_present ops (op.present s)
    rw [foldl_cons, length_cons]
    omega

theorem Holds.run {fuel : ℕ} : ∀ {ops : List (Operation N)} {T : RedBlackTree N} {root : Node N}
    {s : List N}, Holds key T root s → AllAllowed s ops → s.length + ops.length < fuel →
      ∃ T' root', runAll key fuel T ops = some T' ∧
        Holds key T' root' (ops.foldl Operation.present s)
  | [], T, root, _, h, _, _ => ⟨T, root, rfl, h⟩
  | op :: ops, _, _, s, h, hops, hfuel => by
    rw [length_cons] at hfuel
    obtain ⟨T₁, root₁, hrun, h₁⟩ := h.step hops.1 (show s.length < fuel by omega)
    have hlength := op.length_present s
    have hfuel' : (op.present s).length + ops.length < fuel := by omega
    obtain ⟨T', root', hruns, h'⟩ := h₁.run hops.2 hfuel'
    refine ⟨T', root', ?_, h'⟩
    rw [runAll, foldlM_cons, hrun]
    exact hruns

variable (key) in
/-- After any run from the empty tree, which follows no null pointer (the sibling in `removeFixup`
among them), the links are those of a balanced and sorted tree of the nodes that are inserted and
not removed, and a search finds the least of them that is not less than a key. -/
theorem redBlackTree_of_run {T₀ : RedBlackTree N} (hempty : T₀.root = none)
    {ops : List (Operation N)} (hops : AllAllowed [] ops) {fuel : ℕ} (hfuel : ops.length < fuel) :
    ∃ T root n, runAll key fuel T₀ ops = some T ∧ T.Represents root ∧ Balanced root .Black n ∧
      (∀ a ∈ nodes root, ∀ b ∈ nodes root, T.parent b = some a ↔ ∃ side, T.child side a = some b) ∧
      ((nodes root).Pairwise fun a b => key a ≤ key b) ∧
      (nodes root).Perm (presentAfter ops) ∧
      ∀ k, ∃ r, T.findLeastGreaterThanOrEqual key fuel k = some r ∧
        RedBlackTree.IsLeastGreaterThanOrEqual key k (presentAfter ops) r := by
  have hstart : Holds key T₀ null [] :=
    ⟨⟨hempty, trivial, nodup_nil⟩, ⟨0, .null⟩, List.Pairwise.nil, List.Perm.nil⟩
  obtain ⟨T, root, hrun, h⟩ := hstart.run hops (by simpa using hfuel)
  obtain ⟨n, hbalanced⟩ := h.balanced
  refine ⟨T, root, n, hrun, h.represents, hbalanced, fun a ha b hb => h.represents.parent_iff ha hb,
    h.sorted, h.perm, fun k => ?_⟩
  have hlength : (nodes root).length < fuel := by
    have hpresent := length_foldl_present ops ([] : List N)
    rw [h.perm.length_eq]
    rw [length_nil, Nat.zero_add] at hpresent
    exact hpresent.trans_lt hfuel
  obtain ⟨r, hfind, hleast⟩ :=
    RedBlackTree.findLeast_spec k none h.represents.subtree h.sorted hlength
  have hmem : ∀ m, m ∈ nodes root ↔ m ∈ presentAfter ops := fun m => h.perm.mem_iff
  refine ⟨r, ?_, ?_⟩
  · rw [RedBlackTree.findLeastGreaterThanOrEqual, h.represents.root_eq]
    exact hfind
  · rcases hleast with ⟨rfl, hnone⟩ | ⟨n, rfl, hn, hkn, hmin⟩
    · exact fun m hm => hnone m ((hmem m).mpr hm)
    · exact ⟨(hmem n).mp hn, hkn, fun m hm => hmin m ((hmem m).mpr hm)⟩

/-- Of three nodes with equal keys the one in the middle is removed. -/
theorem redBlackTree_of_run_equalKeys : ∃ T root n,
    runAll (fun _ : ℕ => 0) 5 ⟨none, fun _ _ => none, fun _ => none, fun _ => .Black⟩
        [.insert 1, .insert 2, .insert 3, .remove 2] = some T ∧
      T.Represents root ∧ Balanced root .Black n ∧
      (∀ a ∈ nodes root, ∀ b ∈ nodes root, T.parent b = some a ↔ ∃ side, T.child side a = some b) ∧
      ((nodes root).Pairwise fun _ _ => (0 : ℕ) ≤ 0) ∧
      (nodes root).Perm [3, 1] ∧
      ∀ k, ∃ r, T.findLeastGreaterThanOrEqual (fun _ => 0) 5 k = some r ∧
        RedBlackTree.IsLeastGreaterThanOrEqual (fun _ => 0) k [3, 1] r :=
  redBlackTree_of_run (fun _ => 0) rfl (by simp [AllAllowed, Operation.Allowed, Operation.present])
    (by decide)

end WTF
end WebKit
