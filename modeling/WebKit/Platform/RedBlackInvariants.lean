import Mathlib
import WebKit.Platform.PODRedBlackTree

/-!
# The invariants of a red-black tree

What a tree keeps through its operations, for any kind of data with a `View`:

* `keys`: its data in order, the augmentation aside.
* `Summarised`: the augmentation of each node is the total of the keys below it.
* `Balanced`: the colors.

Each is stated for a subtree and for its ancestors, where `SummarisedPath` does not mind that the
ancestors were updated for other keys with the same total, which is why `propagateUpdates` may stop
at an ancestor that does not change (`propagateUpdates_spec`).  `rotate_spec` says what a rotation
keeps.
-/

namespace WebKit
namespace Platform

open Node (null node make)

variable {α κ σ ρ : Type*}

/-! ## Keys -/

/-- The keys of a tree in order. -/
def Node.keys (key : α → κ) : Node α → List κ
  | null => []
  | node _ d l r => l.keys key ++ key d :: r.keys key

variable (side : Side) (near : List κ) (k : κ) (far : List κ)

/-- The keys of a node whose children are given from one side. -/
def Side.join : List κ :=
  match side with
  | .left => near ++ k :: far
  | .right => far ++ k :: near

theorem Side.join_other : side.other.join near k far = side.join far k near := by
  cases side <;> rfl

namespace Node

variable (side : Side) (color : Color) (d : α) (near far : Node α)

theorem make_other : make side.other color d near far = make side color d far near := by
  cases side <;> rfl

theorem keys_make (key : α → κ) (side : Side) (color : Color) (d : α) (near far : Node α) :
    (make side color d near far).keys key = side.join (near.keys key) (key d) (far.keys key) := by
  cases side <;> rfl

theorem keys_setColor (key : α → κ) (color : Color) (t : Node α) :
    (t.setColor color).keys key = t.keys key := by
  cases t <;> rfl

theorem child_make : (make side color d near far).child side = near := by
  cases side <;> rfl

theorem setColor_make (color : Color) (side : Side) (c : Color) (d : α) (near far : Node α) :
    (make side c d near far).setColor color = make side color d near far := by
  cases side <;> rfl

theorem isRed_make : (make side color d near far).isRed = (color == .Red) := by
  cases side <;> rfl

/-- Every node that is not null is made from either side. -/
theorem exists_make (side : Side) (color : Color) (d : α) (l r : Node α) :
    ∃ near far, node color d l r = make side color d near far := by
  cases side with
  | left => exact ⟨l, r, rfl⟩
  | right => exact ⟨r, l, rfl⟩

end Node

/-- The keys before a subtree, given its ancestors. -/
def Path.before (key : α → κ) : Path α → List κ
  | [] => []
  | ⟨.left, _, _, _⟩ :: path => Path.before key path
  | ⟨.right, _, d, sibling⟩ :: path => Path.before key path ++ sibling.keys key ++ [key d]

/-- The keys after it. -/
def Path.after (key : α → κ) : Path α → List κ
  | [] => []
  | ⟨.left, _, d, sibling⟩ :: path => key d :: sibling.keys key ++ Path.after key path
  | ⟨.right, _, _, _⟩ :: path => Path.after key path

/-- All keys, when those of the subtree are known. -/
def Path.around (key : α → κ) (path : Path α) (keys : List κ) : List κ :=
  path.before key ++ keys ++ path.after key

theorem Path.around_cons (key : α → κ) (frame : Frame α) (path : Path α) (keys : List κ) :
    Path.around key (frame :: path) keys = Path.around key path
        (frame.side.join keys (key frame.data) (frame.sibling.keys key)) := by
  obtain ⟨side, color, d, sibling⟩ := frame
  cases side with
  | _ => simp [Path.around, Path.before, Path.after, Side.join]

open PODRedBlackTree

theorem keys_plug (key : α → κ) : ∀ (path : Path α) (t : Node α),
    (plug t path).keys key = path.around key (t.keys key)
  | [], t => by
    simp [plug, Path.around, Path.before, Path.after]
  | frame :: path, t => by
    rw [plug, keys_plug key path, Path.around_cons, Frame.fill, Node.keys_make]

/-! ## The augmentation -/

section Summary

variable (key : α → κ) (summary : α → σ) (total : List κ → σ)

/-- The augmentation of each node is the total of its subtree. -/
def Summarised : Node α → Prop
  | null => True
  | node _ d l r =>
    Summarised l ∧ Summarised r ∧ summary d = total (l.keys key ++ key d :: r.keys key)

/-- The augmentation of a node is the total of these keys, whatever is below it. -/
def HasTotal : Node α → List κ → Prop
  | null, keys => total keys = total []
  | node _ d _ _, keys => summary d = total keys

/-- The ancestors of a subtree with these keys, or with others of the same total. -/
def SummarisedPath : Path α → List κ → Prop
  | [], _ => True
  | frame :: path, keys =>
    Summarised key summary total frame.sibling ∧
      summary frame.data = total (frame.side.join keys (key frame.data) (frame.sibling.keys key)) ∧
      SummarisedPath path (frame.side.join keys (key frame.data) (frame.sibling.keys key))

variable {key summary total}

theorem Summarised.hasTotal {t : Node α} (h : Summarised key summary total t) :
    HasTotal summary total t (t.keys key) := by
  cases t with
  | null => rfl
  | node => exact h.2.2

theorem summarised_make {side : Side} {color : Color} {d : α} {near far : Node α} :
    Summarised key summary total (make side color d near far) ↔
      Summarised key summary total near ∧ Summarised key summary total far ∧
        summary d = total (side.join (near.keys key) (key d) (far.keys key)) := by
  cases side with
  | left => exact Iff.rfl
  | right => exact and_left_comm

theorem summarised_setColor {color : Color} :
    Summarised key summary total (t.setColor color) ↔ Summarised key summary total t := by
  cases t <;> exact Iff.rfl

theorem summarised_plug : ∀ {path : Path α} {t : Node α},
    Summarised key summary total (plug t path) ↔
      Summarised key summary total t ∧ SummarisedPath key summary total path (t.keys key)
  | [], t => (and_iff_left trivial).symm
  | frame :: path, t => by
    rw [plug, summarised_plug, Frame.fill, summarised_make, Node.keys_make, SummarisedPath,
      and_assoc, and_assoc]

end Summary

/-! ## Data with a view -/

/-- What the operations of an element are about: its key, which has a rank, and its augmentation,
which is the total of the keys below it. -/
structure View (E : Element α) (κ σ ρ : Type*) [LinearOrder ρ] where
  key : α → κ
  rank : κ → ρ
  summary : α → σ
  total : List κ → σ
  less_iff : ∀ {d d'}, E.less d d' = true ↔ rank (key d) < rank (key d')
  equal_iff : ∀ {d d'}, E.equal d d' = true ↔ key d = key d'
  total_congr : ∀ {keys keys'}, total keys = total keys' → ∀ before after,
    total (before ++ keys ++ after) = total (before ++ keys' ++ after)
  key_update : ∀ {d l r}, key (E.updateNode d l r).1 = key d
  summary_update : ∀ {d l r keys keys'}, HasTotal summary total l keys →
    HasTotal summary total r keys' → summary (E.updateNode d l r).1 = total (keys ++ key d :: keys')
  unchanged : ∀ {d l r}, (E.updateNode d l r).2 = false → (E.updateNode d l r).1 = d

section View

variable [LinearOrder ρ] {E : Element α} (V : View E κ σ ρ)

namespace View

def keys (t : Node α) : List κ := t.keys V.key

def around (path : Path α) (keys : List κ) : List κ := path.around V.key keys

def Summarised (t : Node α) : Prop := Platform.Summarised V.key V.summary V.total t

def HasTotal (t : Node α) (keys : List κ) : Prop := Platform.HasTotal V.summary V.total t keys

def SummarisedPath (path : Path α) (keys : List κ) : Prop :=
  Platform.SummarisedPath V.key V.summary V.total path keys

variable {V}

theorem total_join {keys : List κ} (h : V.total keys = V.total keys') (side : Side) (k : κ)
    (far : List κ) : V.total (side.join keys k far) = V.total (side.join keys' k far) := by
  cases side with
  | left => simpa [Side.join] using V.total_congr h [] (k :: far)
  | right => simpa [Side.join] using V.total_congr h (far ++ [k]) []

/-- The ancestors only see the total. -/
theorem SummarisedPath.congr : ∀ {path : Path α} {keys keys' : List κ},
    V.SummarisedPath path keys → V.total keys = V.total keys' → V.SummarisedPath path keys'
  | [], _, _, _, _ => trivial
  | frame :: path, _, _, h, htotal => by
    have hjoin := total_join htotal frame.side (V.key frame.data) (frame.sibling.keys V.key)
    have hrest : V.SummarisedPath path _ := h.2.2
    exact ⟨h.1, h.2.1.trans hjoin, hrest.congr hjoin⟩

/-- `updateNode` of a node whose children are right. -/
theorem updateNode_make (side : Side) (color : Color) (d : α) (near far : Node α) :
    ∃ d', (updateNode E (make side color d near far)).1 = make side color d' near far ∧
      V.key d' = V.key d ∧ (V.Summarised near → V.Summarised far →
        V.Summarised (make side color d' near far)) := by
  cases side with
  | left =>
    refine ⟨_, rfl, V.key_update, fun hnear hfar => ⟨hnear, hfar, ?_⟩⟩
    rw [V.key_update]
    exact V.summary_update (Summarised.hasTotal hnear) (Summarised.hasTotal hfar)
  | right =>
    refine ⟨_, rfl, V.key_update, fun hnear hfar => ⟨hfar, hnear, ?_⟩⟩
    rw [V.key_update]
    exact V.summary_update (Summarised.hasTotal hfar) (Summarised.hasTotal hnear)

/-- A rotation keeps the keys, and it updates the two nodes. -/
theorem rotate_make (side : Side) (cx : Color) (dx : α) (a : Node α) (cy : Color) (dy : α)
    (b c : Node α) :
    ∃ dx' dy', rotate E side (make side cx dx a (make side cy dy b c)) =
        some (make side cy dy' (make side cx dx' a b) c) ∧
      V.key dx' = V.key dx ∧ V.key dy' = V.key dy ∧
      (V.Summarised a → V.Summarised b → V.Summarised c → V.Summarised (make side cx dx' a b) ∧
          V.Summarised (make side cy dy' (make side cx dx' a b) c)) := by
  obtain ⟨dx', hx, hkx, hsx⟩ := updateNode_make (V := V) side cx dx a b
  obtain ⟨dy', hy, hky, hsy⟩ := updateNode_make (V := V) side cy dy (make side cx dx' a b) c
  refine ⟨dx', dy', ?_, hkx, hky, fun ha hb hc => ⟨hsx ha hb, hsy (hsx ha hb) hc⟩⟩
  cases side with
  | _ =>
    rw [← hy, ← hx]
    rfl

theorem keys_rotated (side : Side) (cx cy : Color) (a b c : Node α)
    (hx : V.key dx' = V.key dx) (hy : V.key dy' = V.key dy) :
    V.keys (make side cy dy' (make side cx dx' a b) c) =
      V.keys (make side cx dx a (make side cy dy b c)) := by
  rw [keys, keys, Node.keys_make, Node.keys_make, Node.keys_make, Node.keys_make, hx, hy]
  cases side <;> simp [Side.join]

/-- Ancestors that only differ in their augmentation. -/
def SamePath (V : View E κ σ ρ) (path path' : Path α) : Prop :=
  List.Forall₂ (fun frame frame' => frame'.side = frame.side ∧ frame'.color = frame.color ∧
    frame'.sibling = frame.sibling ∧ V.key frame'.data = V.key frame.data) path path'

theorem SamePath.refl (path : Path α) : SamePath V path path :=
  List.forall₂_same.mpr fun _ _ => ⟨rfl, rfl, rfl, rfl⟩

theorem SamePath.around (h : SamePath V path path') (keys : List κ) :
    V.around path' keys = V.around path keys := by
  induction h generalizing keys with
  | nil => rfl
  | cons hframe _ ih =>
    obtain ⟨hside, -, hsibling, hkey⟩ := hframe
    rw [View.around, View.around, Path.around_cons, Path.around_cons, hside, hsibling, hkey]
    exact ih _

theorem updateFrame_spec {keys : List κ} (ht : V.HasTotal t keys) (frame : Frame α) :
    ∃ d', (updateFrame E frame t).1 = { frame with data := d' } ∧ V.key d' = V.key frame.data ∧
      ((updateFrame E frame t).2 = false → d' = frame.data) ∧
      (V.Summarised frame.sibling → V.summary d' =
        V.total (frame.side.join keys (V.key frame.data) (frame.sibling.keys V.key))) := by
  obtain ⟨side, color, d, sibling⟩ := frame
  cases side with
  | left =>
    exact ⟨_, rfl, V.key_update, V.unchanged, fun hs =>
      V.summary_update ht (Summarised.hasTotal hs)⟩
  | right =>
    exact ⟨_, rfl, V.key_update, V.unchanged, fun hs =>
      V.summary_update (Summarised.hasTotal hs) ht⟩

/-- After the propagation the ancestors are right for the subtree, whatever it was before. -/
theorem propagateUpdates_spec : ∀ {path : Path α} {t : Node α} {keys keys' : List κ},
    V.HasTotal t keys → V.SummarisedPath path keys' →
      V.SummarisedPath (propagateUpdates E t path) keys ∧
        SamePath V path (propagateUpdates E t path)
  | [], _, _, _, _, _ => ⟨trivial, List.Forall₂.nil⟩
  | frame :: path, t, keys, keys', ht, hpath => by
    obtain ⟨hsibling, hsummary, hrest⟩ := hpath
    obtain ⟨d', hframe, hkey, hsame, hright⟩ := updateFrame_spec ht frame
    have hfilled := hright hsibling
    rw [propagateUpdates]
    cases hchanged : (updateFrame E frame t).2 with
    | true =>
      rw [hframe]
      have hfill : V.HasTotal (({ frame with data := d' } : Frame α).fill t)
          (frame.side.join keys (V.key frame.data) (frame.sibling.keys V.key)) := by
        cases hside : frame.side with
        | _ =>
          rw [hside] at hfilled
          exact hfilled
      obtain ⟨hpath', hsame'⟩ := propagateUpdates_spec hfill hrest
      refine ⟨⟨hsibling, ?_, ?_⟩, List.Forall₂.cons ⟨rfl, rfl, rfl, hkey⟩ hsame'⟩
      · rw [hkey]
        exact hfilled
      · rw [hkey]
        exact hpath'
    | false =>
      -- the total of the ancestor did not change, nor do those above it
      obtain rfl := hsame hchanged
      rw [hframe]
      exact ⟨⟨hsibling, hfilled, SummarisedPath.congr hrest (hsummary.symm.trans hfilled)⟩,
        SamePath.refl _⟩

end View

end View

/-! ## Colors -/

/-- The color of the root and the number of black nodes on every way down; a red node has black
children, and null counts as black. -/
inductive Balanced : Node α → Color → ℕ → Prop
  | null : Balanced null .Black 0
  | red {d l r n} : Balanced l .Black n → Balanced r .Black n → Balanced (node .Red d l r) .Red n
  | black {d l r c c' n} : Balanced l c n → Balanced r c' n →
      Balanced (node .Black d l r) .Black (n + 1)

/-- The ancestors of a tree of this color and height, in a tree with a black root. -/
inductive BalancedPath : Path α → Color → ℕ → Prop
  | nil {n} : BalancedPath [] .Black n
  | red {side d sibling path n} : Balanced sibling .Black n → BalancedPath path .Red n →
      BalancedPath (⟨side, .Red, d, sibling⟩ :: path) .Black n
  | black {side d sibling path c c' n} : Balanced sibling c' n →
      BalancedPath path .Black (n + 1) → BalancedPath (⟨side, .Black, d, sibling⟩ :: path) c n

variable {n : ℕ} {c : Color} {t : Node α} {path : Path α}

theorem Balanced.makeRed {near far : Node α} (side : Side) (d : α)
    (hnear : Balanced near .Black n) (hfar : Balanced far .Black n) :
    Balanced (make side .Red d near far) .Red n := by
  cases side with
  | left => exact Balanced.red hnear hfar
  | right => exact Balanced.red hfar hnear

theorem Balanced.makeBlack {near far : Node α} (side : Side) (d : α)
    (hnear : Balanced near c n) (hfar : Balanced far c' n) :
    Balanced (make side .Black d near far) .Black (n + 1) := by
  cases side with
  | left => exact Balanced.black hnear hfar
  | right => exact Balanced.black hfar hnear

/-- A red node, from either side. -/
theorem Balanced.exists_red (h : Balanced t .Red n) (side : Side) :
    ∃ d near far, t = make side .Red d near far ∧ Balanced near .Black n ∧
      Balanced far .Black n := by
  cases h with
  | red hl hr =>
    cases side with
    | left => exact ⟨_, _, _, rfl, hl, hr⟩
    | right => exact ⟨_, _, _, rfl, hr, hl⟩

/-- A black node that is not null, from either side. -/
theorem Balanced.exists_black (h : Balanced t .Black (n + 1)) (side : Side) :
    ∃ d near far c c', t = make side .Black d near far ∧ Balanced near c n ∧ Balanced far c' n := by
  cases h with
  | black hl hr =>
    cases side with
    | left => exact ⟨_, _, _, _, _, rfl, hl, hr⟩
    | right => exact ⟨_, _, _, _, _, rfl, hr, hl⟩

theorem Balanced.isRed (h : Balanced t c n) : t.isRed = (c == .Red) := by
  cases h <;> rfl

theorem Balanced.setBlack (h : Balanced t c n) : ∃ n', Balanced (t.setColor .Black) .Black n' := by
  cases h with
  | null => exact ⟨0, Balanced.null⟩
  | red hl hr => exact ⟨_, Balanced.black hl hr⟩
  | black hl hr => exact ⟨_, Balanced.black hl hr⟩

theorem Balanced.setBlack_red (h : Balanced t .Red n) :
    Balanced (t.setColor .Black) .Black (n + 1) := by
  cases h with
  | red hl hr => exact Balanced.black hl hr

theorem BalancedPath.toBlack (h : BalancedPath path c n) : BalancedPath path .Black n := by
  cases h with
  | nil => exact BalancedPath.nil
  | red hsibling hpath => exact BalancedPath.red hsibling hpath
  | black hsibling hpath => exact BalancedPath.black hsibling hpath

theorem BalancedPath.plug (h : BalancedPath path c n) (ht : Balanced t c n) :
    ∃ n', Balanced (plug t path) .Black n' := by
  induction h generalizing t with
  | nil => exact ⟨_, ht⟩
  | red hsibling _ ih => exact ih (Balanced.makeRed _ _ ht hsibling)
  | black hsibling _ ih => exact ih (Balanced.makeBlack _ _ ht hsibling)

/-- A subtree of a balanced tree is balanced, and so are its ancestors. -/
theorem Balanced.of_plug : ∀ {path : Path α} {t : Node α} {n : ℕ},
    Balanced (PODRedBlackTree.plug t path) .Black n →
      ∃ c n', Balanced t c n' ∧ BalancedPath path c n'
  | [], _, _, h => ⟨_, _, h, BalancedPath.nil⟩
  | ⟨side, color, d, sibling⟩ :: path, t, _, h => by
    have hplug : Balanced (PODRedBlackTree.plug (Frame.fill ⟨side, color, d, sibling⟩ t) path)
        .Black _ := h
    obtain ⟨c, n, hfill, hpath⟩ := Balanced.of_plug hplug
    cases side with
    | left =>
      cases hfill with
      | red hl hr => exact ⟨_, _, hl, BalancedPath.red hr hpath⟩
      | black hl hr => exact ⟨_, _, hl, BalancedPath.black hr hpath⟩
    | right =>
      cases hfill with
      | red hl hr => exact ⟨_, _, hr, BalancedPath.red hl hpath⟩
      | black hl hr => exact ⟨_, _, hr, BalancedPath.black hl hpath⟩

/-- Ancestors that only differ in their data. -/
def SameShape (path path' : Path α) : Prop :=
  List.Forall₂ (fun frame frame' : Frame α => frame'.side = frame.side ∧
    frame'.color = frame.color ∧ frame'.sibling = frame.sibling) path path'

theorem View.SamePath.shape [LinearOrder ρ] {V : View E κ σ ρ}
    (h : View.SamePath V path path') : SameShape path path' :=
  List.Forall₂.imp (fun _ _ hframe => ⟨hframe.1, hframe.2.1, hframe.2.2.1⟩) h

theorem BalancedPath.of_shape (h : BalancedPath path c n)
    (hsame : SameShape path path') : BalancedPath path' c n := by
  induction h generalizing path' with
  | nil =>
    cases hsame
    exact BalancedPath.nil
  | red hsibling _ ih =>
    cases hsame with
    | @cons _ frame' _ _ hframe hrest =>
      obtain ⟨side', color', d', sibling'⟩ := frame'
      dsimp only at hframe
      obtain ⟨rfl, rfl, rfl⟩ := hframe
      exact BalancedPath.red hsibling (ih hrest)
  | black hsibling _ ih =>
    cases hsame with
    | @cons _ frame' _ _ hframe hrest =>
      obtain ⟨side', color', d', sibling'⟩ := frame'
      dsimp only at hframe
      obtain ⟨rfl, rfl, rfl⟩ := hframe
      exact BalancedPath.black hsibling (ih hrest)

end Platform
end WebKit
