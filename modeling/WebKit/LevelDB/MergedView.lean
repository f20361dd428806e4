import WebKit.LevelDB.TransactionIterator
import Mathlib.Data.Set.Finite.Lemmas

/-!
# The iterator as a cursor over the merged view

Without writes in between, a `TransactionIterator` should be a plain cursor over the database the
transaction would commit.  It is one, except for one step: a tree cursor that has been moved over
delete markers does not come back to them, so a database cursor that is still in front of the
markers later stands on a deleted key.  This happens between a key of the database the transaction
has not touched and one it has deleted, unless the transaction has put a key in between.
-/

namespace WebKit

open List Option Direction
namespace LevelDB

open LevelDBTransaction TransactionIterator

variable {K V O : Type*} [Comparator K] [LinearOrder O] [Ranked K O]

/-- The calls that move an iterator. -/
inductive Op (K : Type*) where
  | seek (target : K)
  | seekToLast
  | next
  | prev

namespace Op

variable (t : LevelDBTransaction K V) (it : TransactionIterator K)

def run : Op K → TransactionIterator K
  | .seek target => it.seek t target
  | .seekToLast => it.seekToLast t
  | .next => it.next t
  | .prev => it.prev t

/-- What the same calls do to a plain cursor over a sorted map. -/
def cursor (m : SortedMap K V) (pos : Option K) : Op K → Option K
  | .seek target => m.seek target
  | .seekToLast => m.last
  | .next => pos.bind m.next
  | .prev => pos.bind m.prev

/-- `next` or `prev`. -/
def move : Direction → Op K
  | .forward => .next
  | .reverse => .prev

theorem run_move (d : Direction) : (move d).run t it = it.move d t := by
  cases d <;> rfl

theorem cursor_move (m : SortedMap K V) (pos : Option K) (d : Direction) :
    (move d).cursor m pos = pos.bind (m.step d) := by
  cases d <;> rfl

end Op

/-- The iterator is valid where the cursor is, and reads what stands there. -/
def Shows (t : LevelDBTransaction K V) (it : TransactionIterator K) (pos : Option K) : Prop :=
  it.isValid = pos.isSome ∧ it.entry t = pos.bind t.commit.find?

/-- Between a key of the database without a node and a deleted key of the database lies a live
node. -/
def DeletionsScreened (t : LevelDBTransaction K V) : Prop :=
  ∀ a b : O, (t.m_db.lookup a).isSome → t.m_tree.lookup a = none → (t.m_db.lookup b).isSome →
    (∃ node, t.m_tree.lookup b = some node ∧ node.2.deleted = true) →
    ∃ c node, t.m_tree.lookup c = some node ∧ node.2.deleted = false ∧
      (a < c ∧ c < b ∨ b < c ∧ c < a)

variable {t : LevelDBTransaction K V} {it : TransactionIterator K} {d : Direction}
variable {x y : d.Rank O} {U : Set (d.Rank O)} {k : K} {pos : Option K}

theorem mem_ranks_commit : x ∈ t.commit.ranks d ↔ x ∈ (t.overlay d).view := by
  have h : x ∈ t.commit.ranks d ↔ (t.commit.lookup (d.toRank x)).isSome := Iff.rfl
  rw [h, lookup_commit, mem_view_iff]

/-- The condition in the order of a direction. -/
theorem DeletionsScreened.exists_live (h : DeletionsScreened t) (hx : x ∈ (t.overlay d).base)
    (hxo : x ∉ (t.overlay d).layer) (hy : y ∈ (t.overlay d).base) (hyo : y ∈ (t.overlay d).layer)
    (hyl : y ∉ (t.overlay d).live) (hxy : x < y) : ∃ z ∈ (t.overlay d).live, x < z ∧ z < y := by
  obtain ⟨node, hnode⟩ := isSome_iff_exists.mp hyo
  have hdel : node.2.deleted = true := by
    by_contra hc
    exact hyl ⟨node, hnode, by simpa using hc⟩
  obtain ⟨c, cnode, hc, hlive, hbetween⟩ := h (d.toRank x) (d.toRank y) hx
    (not_isSome_iff_eq_none.mp hxo) hy ⟨node, hnode, hdel⟩
  refine ⟨d.ofRank c, ⟨cnode, by rw [toRank_ofRank]; exact hc, hlive⟩, ?_⟩
  cases d with
  | forward =>
    have hxy' : ¬ y < x := not_lt.mpr hxy.le
    exact hbetween.resolve_right fun hcon => hxy' (hcon.1.trans hcon.2)
  | reverse =>
    have hxy' : ¬ y < x := not_lt.mpr hxy.le
    have hr := hbetween.resolve_left fun hcon => hxy' (hcon.1.trans hcon.2)
    exact ⟨hr.2, hr.1⟩

/-! ## Runs without writes -/

/-- Without writes the tree cursor beside a current database cursor is on the next live node. -/
structure Quiet (t : LevelDBTransaction K V) (it : TransactionIterator K) : Prop where
  coherent : Coherent t it
  unchanged : it.m_treeChanged = false
  live : it.m_current = some .dbIterator → ∀ k, it.m_dbIterator = some k →
    IsFirst {x | x ∈ (t.overlay it.m_direction).live ∧ it.m_direction.ofRank (rank k) < x}
      (position it.m_direction it.m_treeIterator)

theorem quiet_create (t : LevelDBTransaction K V) : Quiet t create :=
  ⟨coherent_create t, rfl, nofun⟩

variable (h : Quiet t it)

include h

theorem Quiet.refreshIfChanged : it.refreshIfChanged t = it :=
  refreshIfChanged_of_unchanged h.unchanged

omit h in
theorem Quiet.of_ready (h : Ready t d U it) (hch : it.m_treeChanged = false)
    (hlive : ∀ y ∈ (t.overlay d).live, y ∈ U → position d it.m_treeIterator ≤ y) :
    Quiet t (it.settle t) := by
  have hs := settledTo_settle h.direction h.onKeys
  refine ⟨h.coherent, hs.treeChanged.trans hch, fun hc k hk => ?_⟩
  obtain rfl := hs.direction
  have hlt := (hs.db hc).2
  rw [hk] at hlt
  refine hs.settled.live_after hlt fun y hy hky => hlive y hy ?_
  have hkU : (it.settle t).m_direction.ofRank (rank k) ∈ U :=
    Overlay.Settled.mem_of_le h.upper (fun x hx => (h.base.mem x hx).2)
      (hs.settled.base.mem _ (by rw [hk]; rfl)).2.1
  exact h.upper hky.le hkU

/-- The nodes a move leaves behind the tree cursor are not live. -/
theorem Quiet.live_moved (hk : it.currentKey = some k) (d : Direction) :
    ∀ y ∈ (t.overlay d).live, y ∈ {x : d.Rank O | d.ofRank (rank k) < x} →
      position d (it.moved d t).m_treeIterator ≤ y := by
  intro y hy hky
  rcases (turn_stepCurrent h.coherent hk d).2 with ⟨rfl, hc, hτ⟩ | hfirst
  · have hδ := (currentKey_of_db hc).symm.trans hk
    rw [moved, h.refreshIfChanged, hτ]
    exact (h.live hc k hδ).le y ⟨hy, hky⟩
  · rw [moved, h.refreshIfChanged]
    exact hfirst.le y ⟨(t.overlay d).live_subset hy, hky⟩

theorem treeChanged_moved (d : Direction) :
    (it.moved d t).m_treeChanged = false := by
  rw [moved, h.refreshIfChanged, stepCurrent, turn]
  split <;> split <;> first | exact h.unchanged | (split <;> exact h.unchanged)

theorem Quiet.move (d : Direction) : Quiet t (it.move d t) := by
  rw [TransactionIterator.move]
  split
  · next hv =>
    obtain ⟨k, hk⟩ := isSome_iff_exists.mp (h.coherent.currentKey_isSome.trans hv)
    exact Quiet.of_ready (ready_moved h.coherent hk d) (treeChanged_moved h d) (h.live_moved hk d)
  · exact h

theorem Quiet.seek (target : K) : Quiet t (it.seek t target) :=
  Quiet.of_ready (ready_seek t it target) h.unchanged fun y hy hU =>
    (t.m_tree.isFirst_seek target).le y ⟨(t.overlay .forward).live_subset hy, hU⟩

theorem Quiet.seekToLast : Quiet t (it.seekToLast t) :=
  Quiet.of_ready (ready_seekToLast t it) h.unchanged fun y hy _ =>
    t.m_tree.isFirst_last.le y ((t.overlay .reverse).live_subset hy)

theorem Quiet.run (op : Op K) : Quiet t (op.run t it) := by
  cases op with
  | seek target => exact h.seek target
  | seekToLast => exact h.seekToLast
  | next => exact h.move .forward
  | prev => exact h.move .reverse

omit h

theorem quiet_foldl (t : LevelDBTransaction K V) (ops : List (Op K)) :
    Quiet t (ops.foldl (Op.run t) create) := by
  induction ops using List.reverseRecOn with
  | nil => exact quiet_create t
  | append_singleton ops op ih =>
    rw [foldl_append]
    exact ih.run op

/-! ## The iterator follows the cursor -/

/-- The iterator reads what the cursor stands on, and a current database cursor stands on a key
without a node. -/
structure Follows (t : LevelDBTransaction K V) (it : TransactionIterator K) (pos : Option K) :
    Prop where
  quiet : Quiet t it
  shows' : Shows t it pos
  position_eq : ∀ d : Direction, position d it.currentKey = position d pos
  untouched : it.m_current = some .dbIterator → ∀ k, it.m_dbIterator = some k →
    t.m_tree.lookup (rank k) = none

theorem position_congr {k k' : Option K} (h : position d k = position d k') (e : Direction) :
    position e k = position e k' := by
  cases k with
  | none =>
    rw [position_none, eq_comm, position_eq_top_iff] at h
    rw [h]
  | some a =>
    obtain ⟨b, rfl, hb⟩ := position_eq_coe_iff.mp h.symm
    rw [position_some, position_some, ofRank_inj.mp hb]

/-- A move that covers shows the first key of the view. -/
theorem shows_of_ready (h : Ready t d U it)
    (hcover : (t.overlay d).Covers U (position d it.m_treeIterator))
    (hpos : IsFirst {x | x ∈ t.commit.ranks d ∧ x ∈ U} (position d pos)) :
    position d (it.settle t).currentKey = position d pos ∧ Shows t (it.settle t) pos := by
  have heq : position d (it.settle t).currentKey = position d pos :=
    (h.isFirst hcover).unique (hpos.congr fun x => and_congr_left fun _ => mem_ranks_commit)
  refine ⟨heq, ?_⟩
  cases hk : (it.settle t).currentKey with
  | none =>
    rw [hk, position_none, eq_comm, position_eq_top_iff] at heq
    refine ⟨by rw [← h.coherent.currentKey_isSome, hk, heq], ?_⟩
    rw [h.coherent.entry_eq, hk, heq]
    rfl
  | some k =>
    rw [hk] at heq
    obtain ⟨k', rfl, hr⟩ := position_eq_coe_iff.mp heq.symm
    refine ⟨by rw [← h.coherent.currentKey_isSome, hk]; rfl, ?_⟩
    rw [h.entry hcover hk, bind_some, SortedMap.find?_eq_lookup, lookup_commit, ofRank_inj.mp hr]

theorem Follows.of_ready (h : Ready t d U it) (hch : it.m_treeChanged = false)
    (hlive : ∀ y ∈ (t.overlay d).live, y ∈ U → position d it.m_treeIterator ≤ y)
    (hcover : (t.overlay d).Covers U (position d it.m_treeIterator))
    (hpos : IsFirst {x | x ∈ t.commit.ranks d ∧ x ∈ U} (position d pos)) :
    Follows t (it.settle t) pos := by
  have hs := settledTo_settle h.direction h.onKeys
  obtain ⟨heq, hshows⟩ := shows_of_ready h hcover hpos
  refine ⟨Quiet.of_ready h hch hlive, hshows, position_congr heq, fun hc k hk => ?_⟩
  · -- the key is unchanged and the live nodes lie behind it, so it has no node
    have hlt := (hs.db hc).2
    have hx : position d (it.settle t).m_dbIterator = d.ofRank (rank k) := by rw [hk]; rfl
    have hno := hs.settled.notMem_changed h.upper h.base hcover hlt hx
    obtain ⟨hbase, hδx, hnot⟩ := hs.settled.base.mem _ hx
    rw [← not_isSome_iff_eq_none, ← mem_layer_iff (d := d)]
    intro hover
    have hl := ((t.overlay d).live_iff_base _ hover hno).mpr hbase
    have hU := Overlay.Settled.mem_of_le h.upper (fun y hy => (h.base.mem y hy).2) hδx
    exact hnot ⟨hover, hlive _ hl hU, hx ▸ hlt.le⟩

theorem Follows.create (t : LevelDBTransaction K V) : Follows t create none :=
  ⟨quiet_create t, ⟨rfl, rfl⟩, fun _ => rfl, nofun⟩

theorem Quiet.follows_seek (h : Quiet t it) (target : K) :
    Follows t (it.seek t target) (t.commit.seek target) :=
  Follows.of_ready (ready_seek t it target) h.unchanged (fun y hy hU =>
    (t.m_tree.isFirst_seek target).le y ⟨(t.overlay .forward).live_subset hy, hU⟩)
    (Overlay.covers_of_isFirst (t.m_tree.isFirst_seek target)) (t.commit.isFirst_seek target)

theorem Follows.move (h : Follows t it pos) (hscreen : DeletionsScreened t) (d : Direction) :
    Follows t (it.move d t) (pos.bind (t.commit.step d)) := by
  have hcoh := h.quiet.coherent
  cases hk : it.currentKey with
  | none =>
    have hpos : pos = none := by
      have := h.position_eq d
      rw [hk, position_none, eq_comm, position_eq_top_iff] at this
      exact this
    have hv : it.isValid = false := by rw [← hcoh.currentKey_isSome, hk]; rfl
    subst hpos
    rw [TransactionIterator.move, if_neg (by simp [hv])]
    exact h
  | some k =>
    obtain ⟨k', rfl, hr⟩ : ∃ k', pos = some k' ∧ d.ofRank (rank k') = d.ofRank (rank k) :=
      position_eq_coe_iff.mp (((h.position_eq d).symm.trans (by rw [hk]; rfl)))
    have hv : it.isValid = true := by rw [← hcoh.currentKey_isSome, hk]; rfl
    rw [move_eq hv]
    refine Follows.of_ready (ready_moved hcoh hk d) (treeChanged_moved h.quiet d)
      (h.quiet.live_moved hk d) (covers_moved hcoh hk d fun hst => ?_) ?_
    · -- a marker in front of the live node would be screened by a live node
      obtain ⟨rfl, hc⟩ := hst
      have hδ := (currentKey_of_db hc).symm.trans hk
      have hlive := h.quiet.live hc k hδ
      rw [h.quiet.refreshIfChanged]
      refine Overlay.covers_of_live (fun y hy hU => hlive.le y ⟨hy, hU⟩)
        fun e he heo hel hU hlt => ?_
      have hbase := mem_base_iff (d := it.m_direction).mpr (hcoh.onKeys.db k hδ).isSome
      obtain ⟨z, hz, hkz, hze⟩ := hscreen.exists_live hbase
        (fun hcon => by
          rw [mem_layer_iff, h.untouched hc k hδ] at hcon
          cases hcon) he heo hel hU
      have hez := hlt.trans_le (hlive.le z ⟨hz, hkz⟩)
      exact absurd hez (not_lt.mpr (WithTop.coe_le_coe.mpr hze.le))
    · have := t.commit.isFirst_step d k'
      rw [hr] at this
      exact this

theorem Follows.run (h : Follows t it pos) (hscreen : DeletionsScreened t)
    (op : Op K) : Follows t (op.run t it) (op.cursor t.commit pos) := by
  cases op with
  | seek target => exact h.quiet.follows_seek target
  | seekToLast =>
    refine Follows.of_ready (ready_seekToLast t it) h.quiet.unchanged (fun y hy _ =>
      t.m_tree.isFirst_last.le y ((t.overlay .reverse).live_subset hy))
      (Overlay.covers_of_isFirst (t.m_tree.isFirst_last.congr fun x => (and_iff_left trivial).symm))
      (t.commit.isFirst_last.congr fun x => (and_iff_left trivial).symm)
  | next => exact h.move hscreen .forward
  | prev => exact h.move hscreen .reverse

theorem follows_foldl (hscreen : DeletionsScreened t) (ops : List (Op K)) :
    Follows t (ops.foldl (Op.run t) create) (ops.foldl (Op.cursor t.commit) none) := by
  induction ops using List.reverseRecOn with
  | nil => exact Follows.create t
  | append_singleton ops op ih =>
    rw [foldl_append, foldl_append]
    exact ih.run hscreen op

/-! ## The step that goes wrong -/

theorem ranks_finite {α : Type*} (m : SortedMap K α) (d : Direction) : (m.ranks d).Finite := by
  refine ((m.entries.map fun e => d.ofRank (rank e.1 : O)).finite_toSet).subset fun x hx => ?_
  obtain ⟨e, he, rfl⟩ := SortedMap.mem_ranks_iff.mp hx
  exact mem_map.mpr ⟨e, he, rfl⟩

/-- A current database cursor whose next key has been deleted behind the back of the tree cursor
moves to the deleted key. -/
theorem position_move_of_passed (h : Quiet t it) (hk : it.currentKey = some k)
    (hs : it.Straight d) (hy : IsFirst {x | x ∈ (t.overlay d).base ∧ d.ofRank (rank k) < x} y)
    (hno : ∀ z ∈ (t.overlay d).live, d.ofRank (rank k) < z → y < z) :
    position d (it.move d t).currentKey = y := by
  have hready := ready_moved h.coherent hk d
  have hset := settledTo_settle hready.direction hready.onKeys
  have hv : it.isValid = true := by rw [← h.coherent.currentKey_isSome, hk]; rfl
  have hδ : position d (it.moved d t).m_dbIterator = y := hready.base.unique hy
  rw [move_eq hv, hset.position_currentKey]
  refine (hset.settled.min_eq_of_passed hδ (hy.mem y rfl).1 ?_).1
  obtain ⟨rfl, hc⟩ := hs
  have hlive := h.live hc k ((currentKey_of_db hc).symm.trans hk)
  rw [moved_tree_of_straight ⟨rfl, hc⟩, h.refreshIfChanged]
  cases hτ : position it.m_direction it.m_treeIterator with
  | top => exact WithTop.coe_lt_top y
  | coe z =>
    obtain ⟨hz, hkz⟩ := hlive.mem z hτ
    exact WithTop.coe_lt_coe.mpr (hno z hz hkz)

theorem direction_move (h : Quiet t it) (hv : it.isValid = true) (d : Direction) :
    (it.move d t).m_direction = d := by
  obtain ⟨k, hk⟩ := isSome_iff_exists.mp (h.coherent.currentKey_isSome.trans hv)
  rw [move_eq hv]
  exact (ready_moved h.coherent hk d).direction_settle

section

variable
  (hshows : ∀ ops : List (Op K), Shows t (ops.foldl (Op.run t) create) (ops.foldl (Op.cursor t.commit) none))
include hshows

/-- In either direction some calls lead a plain cursor to any key. -/
theorem exists_ops (hk : t.commit.HasKey k) (d : Direction) :
    ∃ ops : List (Op K), (ops.foldl (Op.run t) create).m_direction = d ∧
      position d (ops.foldl (Op.cursor t.commit) none) = d.ofRank (rank k) := by
  have hmem : ∀ e : Direction, e.ofRank (rank k) ∈ t.commit.ranks e := fun e => by
    have : (t.commit.lookup (e.toRank (e.ofRank (rank k)))).isSome := by
      rw [toRank_ofRank]
      exact hk.isSome
    exact this
  have hseek : ∀ z : K, t.commit.HasKey z →
      position .forward (t.commit.seek z) = forward.ofRank (rank z) := fun z hz => by
    refine (t.commit.isFirst_seek z).unique (IsFirst.coe_iff.mpr ⟨⟨?_, le_rfl⟩, fun y hy => hy.2⟩)
    exact hz.isSome
  cases d with
  | forward => exact ⟨[.seek k], (ready_seek t create k).direction_settle, hseek k hk⟩
  | reverse =>
    have hnext := isFirst_seekBeyond t.commit k .forward
    cases hz : seekBeyond t.commit k .forward with
    | none =>
      -- nothing lies above the key, it is the last one
      rw [hz, position_none, IsFirst.top_iff] at hnext
      refine ⟨[.seekToLast], (ready_seekToLast t create).direction_settle, ?_⟩
      refine t.commit.isFirst_last.unique (IsFirst.coe_iff.mpr ⟨hmem .reverse, fun y hy => ?_⟩)
      exact not_lt.mp fun hlt => hnext (OrderDual.ofDual y) ⟨hy, hlt⟩
    | some z =>
      -- the key is the one before its successor `z`
      rw [hz, position_some, IsFirst.coe_iff] at hnext
      have hpos := hseek z (hasKey_of_seekBeyond hz)
      obtain ⟨z', hz', hr⟩ := position_eq_coe_iff.mp hpos
      have hv : (create.seek t z).isValid = true := by
        exact (hshows [.seek z]).1.trans (isSome_iff_exists.mpr ⟨z', hz'⟩)
      refine ⟨[.seek z, .prev], direction_move ((quiet_create t).seek z) hv .reverse, ?_⟩
      have hcur : [Op.seek z, Op.prev].foldl (Op.cursor t.commit) none = t.commit.prev z' := by
        rw [foldl_cons, foldl_cons, foldl_nil, Op.cursor, Op.cursor, hz', bind_some]
      rw [hcur]
      have hr' : rank z' = (rank z : O) := hr
      refine (t.commit.isFirst_step .reverse z').unique (IsFirst.coe_iff.mpr ⟨⟨hmem .reverse, ?_⟩, ?_⟩)
      · have : (rank k : O) < rank z' := hr' ▸ hnext.1.2
        exact this
      · rintro y ⟨hy, hlt⟩
        have hlt' : (OrderDual.ofDual y : O) < rank z := hr' ▸ hlt
        have : (OrderDual.ofDual y : O) ≤ rank k :=
          not_lt.mp fun hc => absurd (hnext.2 _ ⟨hy, hc⟩) (not_le.mpr hlt')
        exact this

theorem exists_live_of_shows
    (hx : x ∈ (t.overlay d).base) (hxo : x ∉ (t.overlay d).layer) (hy : y ∈ (t.overlay d).base)
    (hyo : y ∈ (t.overlay d).layer) (hyl : y ∉ (t.overlay d).live) (hxy : x < y) :
    ∃ z ∈ (t.overlay d).live, x < z ∧ z < y := by
  by_contra! hno
  -- the last untouched key in front of `y`
  obtain ⟨x', ⟨hx', hxo', hxx', hxy'⟩, hmax⟩ := Set.exists_max_image
    {z | z ∈ (t.overlay d).base ∧ z ∉ (t.overlay d).layer ∧ x ≤ z ∧ z < y} id
    ((ranks_finite t.m_db d).subset fun z hz => hz.1) ⟨x, hx, hxo, le_rfl, hxy⟩
  have hno' : ∀ z ∈ (t.overlay d).live, x' < z → y < z := by
    intro z hz hlt
    refine lt_of_le_of_ne (hno z hz (hxx'.trans_lt hlt)) fun hc => hyl (hc ▸ hz)
  obtain ⟨⟨k, v⟩, hkv⟩ := isSome_iff_exists.mp hx'
  have hrk : d.ofRank (rank k) = x' := by
    rw [show rank k = d.toRank x' from SortedMap.rank_of_lookup hkv, ofRank_toRank]
  subst hrk
  rw [toRank_ofRank] at hkv
  rw [mem_layer_iff, not_isSome_iff_eq_none] at hxo'
  have hview : t.view (rank k) = some (k, v) := by rw [view, hxo', hkv]
  have hkey : t.commit.HasKey k := ⟨v, by rw [lookup_commit, hview]⟩
  obtain ⟨ops, hdir, hpos⟩ := exists_ops hshows hkey d
  have hquiet := quiet_foldl t ops
  have hentry := (hshows ops).2
  have hnext := hshows (ops ++ [.move d])
  rw [foldl_append, foldl_append, foldl_cons, foldl_nil, foldl_cons,
    Op.run_move, Op.cursor_move] at hnext
  generalize ops.foldl (Op.run t) create = it at *
  obtain ⟨k', hk', hr⟩ := position_eq_coe_iff.mp hpos
  rw [hk', bind_some, SortedMap.find?_eq_lookup, ofRank_inj.mp hr, lookup_commit,
    hview, hquiet.coherent.entry_eq] at hentry
  obtain ⟨k'', hcur, hval⟩ := bind_eq_some_iff.mp hentry
  obtain ⟨v', -, hv'⟩ := map_eq_some_iff.mp hval
  obtain rfl : k'' = k := congrArg Prod.fst hv'
  have hs : it.Straight d := by
    rcases cursor_of_currentKey hcur with ⟨-, hτ⟩ | ⟨hc, -⟩
    · have := (hquiet.coherent.onKeys.tree _ hτ).isSome
      rw [hxo'] at this
      cases this
    · exact ⟨hdir, hc⟩
  -- the next key of the database has been deleted
  have hfirst := t.m_db.isFirst_step d k''
  obtain ⟨y', hy'⟩ : ∃ y' : d.Rank O, position d (t.m_db.step d k'') = y' := by
    cases hc : position d (t.m_db.step d k'') with
    | top => exact absurd (hc ▸ hfirst.le y ⟨hy, hxy'⟩) (by simp)
    | coe y' => exact ⟨y', rfl⟩
  rw [hy'] at hfirst
  obtain ⟨⟨hy'b, hky'⟩, hle⟩ := IsFirst.coe_iff.mp hfirst
  have hy'y : y' ≤ y := hle y ⟨hy, hxy'⟩
  have hmove := position_move_of_passed hquiet hcur hs hfirst fun z hz hlt =>
    hy'y.trans_lt (hno' z hz hlt)
  have hnot : y' ∉ (t.overlay d).view := by
    rintro (hlive | ⟨hb, ho⟩)
    · exact absurd (hno' y' hlive hky') (not_lt.mpr hy'y)
    · have hlt : y' < y := lt_of_le_of_ne hy'y fun hc => ho (hc ▸ hyo)
      have := hmax y' ⟨hb, ho, hxx'.trans hky'.le, hlt⟩
      exact absurd this (not_le.mpr hky')
  -- but the cursor shows a key of the view
  obtain ⟨a, ha, har⟩ := position_eq_coe_iff.mp hmove
  have hvalid : (it.move d t).isValid = true := by
    rw [← (hquiet.move d).coherent.currentKey_isSome, ha]
    rfl
  obtain ⟨b, hb⟩ := isSome_iff_exists.mp (hnext.1.symm.trans hvalid)
  obtain ⟨w, hw⟩ : t.commit.HasKey b := by
    obtain ⟨c, -, hc⟩ := bind_eq_some_iff.mp hb
    exact SortedMap.hasKey_of_step hc
  have hentry' := hnext.2
  rw [hb, bind_some, SortedMap.find?_eq_lookup, hw, (hquiet.move d).coherent.entry_eq, ha] at hentry'
  obtain ⟨w', -, hw'⟩ := map_eq_some_iff.mp hentry'
  obtain rfl : a = b := congrArg Prod.fst hw'
  refine hnot (mem_view_iff.mpr ?_)
  rw [← har, toRank_ofRank, ← lookup_commit, hw]
  rfl

end

/-- **When the iterator is a cursor over the merged view.**  For all calls of `seek`, `seekToLast`,
`next` and `prev` the iterator of a transaction shows what a plain cursor over the committed
database shows, exactly when every deleted key of the database is screened from the untouched ones
by live nodes. -/
theorem shows_iff_deletionsScreened (t : LevelDBTransaction K V) : (∀ ops : List (Op K),
      Shows t (ops.foldl (Op.run t) create) (ops.foldl (Op.cursor t.commit) none)) ↔
      DeletionsScreened t := by
  refine ⟨fun h a b ha hta hb hdel => ?_, fun h ops => (follows_foldl h ops).shows'⟩
  obtain ⟨node, hnode, hd⟩ := hdel
  have hover : (t.m_tree.lookup b).isSome := by rw [hnode]; rfl
  have hlive : ¬ ∃ n, t.m_tree.lookup b = some n ∧ n.2.deleted = false := by
    rintro ⟨n, hn, hnd⟩
    obtain rfl : n = node := some_inj.mp (hn.symm.trans hnode)
    exact absurd (hnd.symm.trans hd) (by simp)
  have hno : ¬ (t.m_tree.lookup a).isSome := by rw [hta]; simp
  rcases lt_trichotomy a b with hab | rfl | hab
  · obtain ⟨c, ⟨n, hn, hnd⟩, hac, hcb⟩ := exists_live_of_shows (d := .forward) h ha hno hb hover
      hlive hab
    exact ⟨c, n, hn, hnd, Or.inl ⟨hac, hcb⟩⟩
  · exact absurd hover hno
  · obtain ⟨c, ⟨n, hn, hnd⟩, hac, hcb⟩ := exists_live_of_shows (d := .reverse)
      (x := OrderDual.toDual a) (y := OrderDual.toDual b) h ha hno hb hover hlive hab
    exact ⟨OrderDual.ofDual c, n, hn, hnd, Or.inr ⟨hcb, hac⟩⟩

/-- The database holds 1 and 2 and the transaction has deleted 2. -/
def deletedSuccessor : LevelDBTransaction ℤ ℕ :=
  ((LevelDBTransaction.create ⟨[(1, 10), (2, 20)], by decide⟩).remove 2).1

/-- From 1 the iterator moves on to the deleted key. -/
theorem not_shows_deletedSuccessor :
    ([Op.seek (1 : ℤ), Op.next].foldl (Op.run deletedSuccessor) create).entry deletedSuccessor =
        some (2, 20) ∧
      [Op.seek (1 : ℤ), Op.next].foldl (Op.cursor deletedSuccessor.commit) none = none ∧
      ¬ ∀ ops : List (Op ℤ), Shows deletedSuccessor (ops.foldl (Op.run deletedSuccessor) create)
        (ops.foldl (Op.cursor deletedSuccessor.commit) none) := by
  have hentry : ([Op.seek (1 : ℤ), Op.next].foldl (Op.run deletedSuccessor) create).entry
      deletedSuccessor = some (2, 20) := by decide
  have hcursor : [Op.seek (1 : ℤ), Op.next].foldl (Op.cursor deletedSuccessor.commit) none = none :=
    by decide
  refine ⟨hentry, hcursor, fun h => ?_⟩
  have := (h [Op.seek 1, Op.next]).2
  cases this

end LevelDB
end WebKit
