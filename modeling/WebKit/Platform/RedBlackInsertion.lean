import WebKit.Platform.RedBlackInvariants

/-!
# Insertion into a red-black tree

`insertNode_spec`: a new key comes after the keys of its rank and those before them, no null pointer
is followed, and the augmentation and the colors are right again.
-/

namespace WebKit

open List
namespace Platform

open Node (null node make)
open PODRedBlackTree

variable {α κ σ ρ : Type*} [LinearOrder ρ] {E : Element α} (V : View E κ σ ρ)

namespace View

/-! ## The place of the new node -/

theorem plug_treeInsert (d : α) : ∀ (t : Node α) (path : Path α),
    plug null (treeInsert E d t path) = plug t path
  | null, _ => rfl
  | node _ _ l r, path => by
    rw [treeInsert]
    split
    · exact plug_treeInsert d l _
    · exact plug_treeInsert d r _

/-- The keys in order of their ranks. -/
def Sorted (keys : List κ) : Prop := keys.Pairwise fun k k' => V.rank k ≤ V.rank k'

variable {V}

/-- The new key comes after those whose rank is not greater. -/
theorem treeInsert_order (d : α) : ∀ (t : Node α) (path : Path α), V.Sorted (V.keys t) →
    (∀ k ∈ path.before V.key, V.rank k ≤ V.rank (V.key d)) →
    (∀ k ∈ path.after V.key, V.rank (V.key d) < V.rank k) →
      (∀ k ∈ (treeInsert E d t path).before V.key, V.rank k ≤ V.rank (V.key d)) ∧
        ∀ k ∈ (treeInsert E d t path).after V.key, V.rank (V.key d) < V.rank k
  | null, _, _, hbefore, hafter => ⟨hbefore, hafter⟩
  | node color e l r, path, hsorted, hbefore, hafter => by
    rw [Sorted, keys, Node.keys, pairwise_append, pairwise_cons] at hsorted
    obtain ⟨hl, ⟨her, hr⟩, hlr⟩ := hsorted
    rw [treeInsert]
    by_cases hless : E.less d e = true
    · rw [if_pos hless]
      have hde := V.less_iff.mp hless
      refine treeInsert_order d l _ hl hbefore ?_
      intro k hk
      rcases mem_append.mp hk with hk | hk
      · rcases mem_cons.mp hk with rfl | hk
        · exact hde
        · exact lt_of_lt_of_le hde (her k hk)
      · exact hafter k hk
    · rw [if_neg hless]
      have hed : V.rank (V.key e) ≤ V.rank (V.key d) :=
        le_of_not_gt fun hlt => hless (V.less_iff.mpr hlt)
      refine treeInsert_order d r _ hr ?_ hafter
      intro k hk
      rcases mem_append.mp hk with hk | hk
      · rcases mem_append.mp hk with hk | hk
        · exact hbefore k hk
        · exact le_trans (hlr k hk _ mem_cons_self) hed
      · rw [mem_singleton.mp hk]
        exact hed

theorem Sorted.insert {before after : List κ} {k : κ} (h : V.Sorted (before ++ after))
    (hbefore : ∀ k' ∈ before, V.rank k' ≤ V.rank k) (hafter : ∀ k' ∈ after, V.rank k < V.rank k') :
    V.Sorted (before ++ k :: after) := by
  obtain ⟨hb, ha, hba⟩ := pairwise_append.mp h
  refine pairwise_append.mpr ⟨hb, pairwise_cons.mpr ⟨?_, ha⟩, ?_⟩
  · exact fun k' hk' => le_of_lt (hafter k' hk')
  · intro k' hk' k'' hk''
    rcases mem_cons.mp hk'' with rfl | hk''
    · exact hbefore k' hk'
    · exact hba k' hk' k'' hk''

/-! ## The fixup -/

/-- Case 3: the parent comes up between the outer child and the grandparent. -/
theorem rotate_grandparent (side : Side) (dp dg : α) {x sibling uncle : Node α} {n : ℕ}
    (hx : Balanced x .Red n) (hsibling : Balanced sibling .Black n)
    (huncle : Balanced uncle .Black n) :
    ∃ t, rotate E side.other
        (Frame.fill ⟨side, .Red, dg, uncle⟩ (make side .Black dp x sibling)) = some t ∧
      Balanced t .Black (n + 1) ∧
      V.keys t = side.join (side.join (V.keys x) (V.key dp) (V.keys sibling)) (V.key dg)
        (V.keys uncle) ∧
      (V.Summarised x → V.Summarised sibling → V.Summarised uncle → V.Summarised t) := by
  obtain ⟨dg', dp', hrotate, hg, hp, hsummarised⟩ :=
    rotate_make (V := V) side.other .Red dg uncle .Black dp sibling x
  refine ⟨_, ?_, Balanced.makeBlack _ _ (Balanced.makeRed _ _ huncle hsibling) hx, ?_, fun hx hs hu =>
    (hsummarised hu hs hx).2⟩
  · rw [Node.make_other, Node.make_other] at hrotate
    exact hrotate
  · rw [keys_rotated _ _ _ _ _ _ hg hp, Node.make_other, Node.make_other, keys, Node.keys_make,
      Node.keys_make]
    rfl

/-- The subtree from which the updates are propagated, with its ancestors. -/
structure Inserted (V : View E κ σ ρ) (path : Path α) (keys : List κ) (t : Node α)
    (path' : Path α) : Prop where
  around : V.around path' (V.keys t) = V.around path keys
  summarised : V.Summarised t
  summarisedPath : ∃ keys', V.SummarisedPath path' keys'
  balanced : ∃ c n, Balanced t c n ∧ (path' = [] ∨ BalancedPath path' c n)

/-- The loop repairs the colors, going up by two nodes while the uncle is red. -/
theorem insertFixup_spec : ∀ {path : Path α} {x : Node α} {n : ℕ} {keys : List κ},
    Balanced x .Red n → BalancedPath path .Black n → V.Summarised x → V.SummarisedPath path keys →
        ∃ t path', insertFixup E x path = some (t, path') ∧ Inserted V path (V.keys x) t path'
  | [], x, n, keys, hx, hpath, hsx, hspath => by
    exact ⟨_, _, rfl, rfl, hsx, ⟨_, hspath⟩, _, _, hx, Or.inl rfl⟩
  | [parent], x, n, keys, hx, hpath, hsx, hspath => by
    cases hpath with
    | red _ hrest => cases hrest
    | black hsibling hrest =>
      exact ⟨_, _, rfl, rfl, hsx, ⟨_, hspath⟩, _, _, hx, Or.inr (BalancedPath.black hsibling hrest)⟩
  | parent :: grandparent :: path, x, n, keys, hx, hpath, hsx, hspath => by
    cases hpath with
    | black hsibling hrest =>
      exact ⟨_, _, rfl, rfl, hsx, ⟨_, hspath⟩, _, _, hx, Or.inr (BalancedPath.black hsibling hrest)⟩
    | @red pside dp sibling _ _ hsibling hrest =>
      cases hrest with
      | @black gside dg uncle _ _ c' _ huncle hrest =>
        obtain ⟨hsp, -, hsg, -, hsrest⟩ := hspath
        have hred := huncle.isRed
        rw [insertFixup, if_pos rfl]
        cases c' with
        | Red =>
          -- the parent and the uncle become black, and the grandparent takes the place of `x`
          rw [if_pos (show uncle.isRed = true from hred)]
          dsimp only [Frame.fill]
          obtain ⟨dp', hp, hkp, hsump⟩ := updateNode_make (V := V) pside .Black dp x sibling
          obtain ⟨dg', hg, hkg, hsumg⟩ := updateNode_make (V := V) gside .Red dg
            (make pside .Black dp' x sibling) (uncle.setColor .Black)
          rw [hp, hg]
          have huncle' := huncle.setBlack_red
          have hsuncle : V.Summarised (uncle.setColor .Black) :=
            summarised_setColor.mpr hsg
          obtain ⟨t, path', hfixup, hinserted⟩ := insertFixup_spec
            (Balanced.makeRed gside dg' (Balanced.makeBlack pside dp' hx hsibling) huncle') hrest
            (hsumg (hsump hsx hsp) hsuncle) hsrest
          refine ⟨t, path', hfixup, ?_, hinserted.summarised, hinserted.summarisedPath,
            hinserted.balanced⟩
          rw [hinserted.around, View.around, View.around, Path.around_cons, Path.around_cons,
            View.keys, Node.keys_make, Node.keys_make, Node.keys_setColor, hkp, hkg]
          rfl
        | Black =>
          have hblack : ¬uncle.isRed = true := by
            rw [hred]
            decide
          rw [if_neg hblack]
          by_cases hside : pside = gside
          · subst hside
            rw [if_pos rfl]
            have hupper : Node.setColor .Black (Frame.fill ⟨pside, .Red, dp, sibling⟩ x) =
                make pside .Black dp x sibling := Node.setColor_make _ _ _ _ _ _
            obtain ⟨t, hrotate, hbalanced, hkeys, hsummarised⟩ :=
              rotate_grandparent (V := V) pside dp dg hx hsibling huncle
            dsimp only
            rw [hupper, hrotate]
            refine ⟨t, path, rfl, ?_, hsummarised hsx hsp hsg, ⟨_, hsrest⟩, _, _, hbalanced,
              Or.inr hrest⟩
            rw [hkeys, View.around, View.around, Path.around_cons, Path.around_cons]
            rfl
          · -- the inner child comes up, and the parent takes its place below it
            obtain rfl : pside = gside.other := by
              cases pside <;> cases gside <;> first | rfl | exact absurd rfl hside
            obtain ⟨dx, near, far, rfl, hnear, hfar⟩ := hx.exists_red gside
            obtain ⟨hsnear, hsfar, -⟩ := summarised_make.mp hsx
            obtain ⟨dp', dx', hinner, hkp, hkx, hsinner⟩ :=
              rotate_make (V := V) gside .Red dp sibling .Red dx near far
            rw [if_neg hside]
            have hfill : Frame.fill ⟨gside.other, .Red, dp, sibling⟩ (make gside .Red dx near far) =
                make gside .Red dp sibling (make gside .Red dx near far) := Node.make_other _ _ _ _ _
            rw [hfill, hinner]
            dsimp only
            rw [Node.setColor_make]
            obtain ⟨t, hrotate, hbalanced, hkeys, hsummarised⟩ := rotate_grandparent (V := V) gside dx' dg
              (Balanced.makeRed gside dp' hsibling hnear) hfar huncle
            rw [hrotate]
            refine ⟨t, path, rfl, ?_, ?_, ⟨_, hsrest⟩, _, _, hbalanced, Or.inr hrest⟩
            · have hsame := keys_rotated (V := V) gside .Red .Red sibling near far hkp hkx
              have hjoined : gside.join (V.keys (make gside .Red dp' sibling near)) (V.key dx')
                  (V.keys far) = gside.join (V.keys sibling) (V.key dp)
                    (V.keys (make gside .Red dx near far)) := by
                rw [View.keys, Node.keys_make] at hsame
                exact hsame.trans (Node.keys_make _ _ _ _ _ _)
              rw [hkeys, hjoined, View.around, View.around, Path.around_cons, Path.around_cons,
                Side.join_other]
              rfl
            · exact hsummarised (hsinner hsp hsnear hsfar).1 hsfar hsg

/-- The new key is put in its place, and the tree is right again. -/
theorem insertNode_spec {root : Node α} {n : ℕ} (hbalanced : Balanced root .Black n)
    (hsummarised : V.Summarised root) (hsorted : V.Sorted (V.keys root)) (d : α) :
    ∃ root' n', insertNode E root d = some root' ∧ Balanced root' .Black n' ∧
      V.Summarised root' ∧ V.Sorted (V.keys root') ∧
      (V.keys root').Perm (V.key d :: V.keys root) := by
  have hplug := plug_treeInsert (E := E) d root []
  obtain ⟨hbefore, hafter⟩ := treeInsert_order d root [] hsorted
    (fun k hk => absurd hk not_mem_nil) fun k hk => absurd hk not_mem_nil
  generalize hpath : treeInsert E d root [] = path at hplug hbefore hafter
  have hroot : plug null path = root := hplug
  obtain ⟨c, n', hnull, hbalancedPath⟩ := Balanced.of_plug (hroot.symm ▸ hbalanced)
  obtain ⟨-, hsummarisedPath⟩ := summarised_plug.mp (hroot.symm ▸ hsummarised)
  have hkeys : V.keys root = path.before V.key ++ path.after V.key := by
    rw [← hroot, keys, keys_plug, Path.around, Node.keys, append_nil]
  obtain ⟨d', hx, hkey, hsx⟩ := updateNode_make (V := V) .left .Red d null null
  have hnode : (updateNode E (node .Red d null null)).1 = node .Red d' null null := hx
  cases hnull with
  | null =>
    obtain ⟨t, path', hfixup, hinserted⟩ := insertFixup_spec (V := V)
      (x := node .Red d' null null) (Balanced.red Balanced.null Balanced.null) hbalancedPath
      (hsx trivial trivial) hsummarisedPath
    obtain ⟨keys', hkeys'⟩ := hinserted.summarisedPath
    obtain ⟨hright, hsame⟩ := propagateUpdates_spec
      (Summarised.hasTotal hinserted.summarised) hkeys'
    have hresult : insertNode E root d =
        some ((plug t (propagateUpdates E t path')).setColor .Black) := by
      rw [insertNode, hpath, hnode, hfixup]
    have hnew : V.keys ((plug t (propagateUpdates E t path')).setColor .Black) =
        path.before V.key ++ V.key d :: path.after V.key := by
      rw [keys, Node.keys_setColor, keys_plug]
      refine (hsame.around _).trans (hinserted.around.trans ?_)
      change path.before V.key ++ [V.key d'] ++ path.after V.key = _
      rw [hkey, append_assoc]
      rfl
    have hbalanced' : ∃ n', Balanced ((plug t (propagateUpdates E t path')).setColor .Black)
        .Black n' := by
      obtain ⟨c, n, ht, rfl | hpath'⟩ := hinserted.balanced
      · exact ht.setBlack
      · obtain ⟨n', hplugged⟩ := (hpath'.of_shape hsame.shape).plug ht
        exact hplugged.setBlack
    obtain ⟨n'', hbalanced'⟩ := hbalanced'
    refine ⟨_, n'', hresult, hbalanced', ?_, ?_, ?_⟩
    · exact summarised_setColor.mpr (summarised_plug.mpr
        ⟨hinserted.summarised, hright⟩)
    · rw [hnew]
      exact Sorted.insert (hkeys ▸ hsorted) hbefore hafter
    · rw [hnew, hkeys]
      exact perm_middle

end View

end Platform
end WebKit
