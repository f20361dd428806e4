import WebKit.Library.SortedMap

/-!
# Transactions over a LevelDB database

A `LevelDBTransaction` collects its writes in an AVL tree of nodes sorted by the comparator of the
database; a node either holds a value or is marked deleted.  Reads go through the tree to the
database, and `commit` writes the nodes to the database in one batch.  The database and the tree
are sorted maps.  For the tree this is so while it has fewer than 9227464 nodes: the paths in it, in
`insert` and in its iterators, are for a tree of `maxDepth`, 32, and an AVL tree that is deeper has
at least that many.

What a transaction shows is its `view`: a node hides the entry of the database with the same key.
Committing makes the database equal to the view.
-/

namespace WebKit

open SortedMap
namespace LevelDB

/-- The payload of a node of the tree; the key is the one of the map. -/
structure AVLTreeNode (V : Type*) where
  value : V
  deleted : Bool
  deriving DecidableEq

structure LevelDBTransaction (K V : Type*) [Comparator K] where
  m_db : SortedMap K V
  m_tree : SortedMap K (AVLTreeNode V)

namespace LevelDBTransaction

variable {K V O : Type*} [Comparator K] [LinearOrder O] [Ranked K O]

/-- A transaction without writes. -/
def create (db : SortedMap K V) : LevelDBTransaction K V := ⟨db, empty⟩

variable (t : LevelDBTransaction K V)

/-- A node that is found keeps its key.  The flag says that a node was added to the tree, which the
open iterators are told. -/
def set (key : K) (value : V) (deleted : Bool) : LevelDBTransaction K V × Bool :=
  match t.m_tree.find? key with
  | none => ({ t with m_tree := t.m_tree.insert key ⟨value, deleted⟩ }, true)
  | some node => ({ t with m_tree := t.m_tree.insert node.1 ⟨value, deleted⟩ }, false)

def put (key : K) (value : V) : LevelDBTransaction K V × Bool :=
  t.set key value false

def remove [Inhabited V] (t : LevelDBTransaction K V) (key : K) : LevelDBTransaction K V × Bool :=
  t.set key default true

def get (key : K) : Option V :=
  match t.m_tree.find? key with
  | some node => if node.2.deleted then none else some node.2.value
  | none => (t.m_db.find? key).map Prod.snd

/-- The write of one node in the batch. -/
def writeNode (db : SortedMap K V) (node : K × AVLTreeNode V) : SortedMap K V :=
  if node.2.deleted then db.erase node.1 else db.insert node.1 node.2.value

/-- The database after the batch. -/
def commit : SortedMap K V := t.m_tree.entries.foldl writeNode t.m_db

/-! ## The view -/

/-- What a node leaves visible at its place. -/
def nodeEntry (node : K × AVLTreeNode V) : Option (K × V) :=
  if node.2.deleted then none else some (node.1, node.2.value)

/-- The entry a transaction shows at a rank. -/
def view (o : O) : Option (K × V) :=
  match t.m_tree.lookup o with
  | some node => nodeEntry node
  | none => t.m_db.lookup o

variable {t : LevelDBTransaction K V} {key k : K} {v : V}

theorem rank_of_view (h : t.view o = some e) : rank e.1 = o := by
  unfold view at h
  split at h
  · next node hnode =>
    rw [nodeEntry] at h
    split at h
    · cases h
    · have hr : rank node.1 = o := rank_of_lookup hnode
      rw [← Option.some_inj.mp h, hr]
  · exact rank_of_lookup h

theorem get_eq_view (t : LevelDBTransaction K V) (key : K) :
    t.get key = (t.view (rank key)).map Prod.snd := by
  rw [get, view, find?_eq_lookup, find?_eq_lookup]
  cases t.m_tree.lookup (rank key) with
  | none => rfl
  | some node =>
    simp only [nodeEntry]
    split <;> rfl

@[simp] theorem view_create (db : SortedMap K V) (o : O) : (create db).view o = db.lookup o := rfl

theorem lookup_writeNode (db : SortedMap K V) (node : K × AVLTreeNode V) (o : O) :
    (writeNode db node).lookup o = if rank node.1 = o then nodeEntry node else db.lookup o := by
  rw [writeNode, nodeEntry]
  split
  · rw [lookup_erase]
  · rw [lookup_insert]

theorem lookup_foldl_writeNode {l : List (K × AVLTreeNode V)}
    (h : l.Pairwise fun a b : K × AVLTreeNode V => (rank a.1 : O) < rank b.1)
    (db : SortedMap K V) (o : O) :
    (l.foldl writeNode db).lookup o =
      match l.find? fun e => rank e.1 = o with
      | some node => nodeEntry node
      | none => db.lookup o := by
  induction l generalizing db with
  | nil => rfl
  | cons a l ih =>
    rw [List.pairwise_cons] at h
    rw [List.foldl_cons, ih h.2, lookup_writeNode]
    by_cases ha : rank a.1 = o
    · have hnone : l.find? (fun e => rank e.1 = o) = none := by
        rw [List.find?_eq_none]
        intro e he
        simpa [ha] using ne_of_gt (ha ▸ h.1 e he)
      rw [hnone, if_pos ha, List.find?_cons_of_pos (by simpa using ha)]
    · rw [if_neg ha, List.find?_cons_of_neg (by simpa using ha)]

variable (t)

/-- Committing makes the database equal to the view. -/
theorem lookup_commit (o : O) : t.commit.lookup o = t.view o :=
  lookup_foldl_writeNode (rank_lt_of_sorted t.m_tree.sorted) t.m_db o

/-! ## Writes -/

@[simp] theorem set_m_db (key : K) (value : V) (deleted : Bool) :
    (t.set key value deleted).1.m_db = t.m_db := by
  rw [set]
  split <;> rfl

/-- The node of a key after a write. -/
theorem lookup_set (key : K) (value : V) (deleted : Bool) (o : O) :
    (t.set key value deleted).1.m_tree.lookup o =
      if rank key = o then some (((t.m_tree.find? key).map Prod.fst).getD key, ⟨value, deleted⟩)
      else t.m_tree.lookup o := by
  rw [set]
  split
  · next h => rw [lookup_insert, h]; rfl
  · next node h =>
    have hr : rank node.1 = rank key :=
      rank_of_lookup ((t.m_tree.find?_eq_lookup key).symm.trans h)
    rw [lookup_insert, hr, h]
    rfl

theorem view_set (key : K) (value : V) (deleted : Bool) (o : O) :
    (t.set key value deleted).1.view o =
      if rank key = o then
        nodeEntry (((t.m_tree.find? key).map Prod.fst).getD key, ⟨value, deleted⟩)
      else t.view o := by
  rw [view, lookup_set, set_m_db]
  by_cases h : rank key = o
  · rw [if_pos h, if_pos h]
  · rw [if_neg h, if_neg h]
    rfl

/-- A put shows its value at the key and changes nothing else. -/
theorem view_put (key : K) (value : V) (o : O) :
    (t.put key value).1.view o =
      if rank key = o then some (((t.m_tree.find? key).map Prod.fst).getD key, value)
      else t.view o :=
  t.view_set key value false o

/-- A removal hides the key and changes nothing else. -/
theorem view_remove [Inhabited V] (key : K) (o : O) :
    (t.remove key).1.view o = if rank key = o then none else t.view o :=
  t.view_set key default true o

theorem get_put (key : K) (value : V) (k : K) :
    (t.put key value).1.get k = if rank key = rank k then some value else t.get k := by
  rw [get_eq_view, view_put, get_eq_view]
  split <;> rfl

theorem get_remove [Inhabited V] (key k : K) :
    (t.remove key).1.get k = if rank key = rank k then none else t.get k := by
  rw [get_eq_view, view_remove, get_eq_view]
  split <;> rfl

/-- After the batch the database has what the transaction showed. -/
theorem get_create_commit (k : K) :
    (create t.commit).get k = t.get k := by
  rw [get_eq_view, view_create, lookup_commit, get_eq_view]

variable {t}

/-! ## Stored values -/

/-- A value an iterator may read at a key: one of the database, hidden or not, or of a live node. -/
def Stored (t : LevelDBTransaction K V) (key : K) (value : V) : Prop :=
  (∃ k, t.m_db.lookup (rank key) = some (k, value)) ∨
    ∃ k, t.m_tree.lookup (rank key) = some (k, ⟨value, false⟩)

theorem stored_of_view (h : t.view (rank key) = some e) : t.Stored key e.2 := by
  unfold view at h
  split at h
  · next node hnode =>
    obtain ⟨k, value, deleted⟩ := node
    cases deleted with
    | true => cases h
    | false =>
      cases h
      exact Or.inr ⟨k, hnode⟩
  · exact Or.inl ⟨e.1, h⟩

/-- A write stores only its value. -/
theorem stored_set (h : (t.set key value deleted).1.Stored k v) :
    t.Stored k v ∨ rank key = rank k ∧ deleted = false ∧ v = value := by
  rcases h with ⟨k', h⟩ | ⟨k', h⟩
  · rw [set_m_db] at h
    exact Or.inl (Or.inl ⟨k', h⟩)
  · rw [lookup_set] at h
    split at h
    · next hr =>
      have hnode := congrArg Prod.snd (Option.some_inj.mp h)
      exact Or.inr ⟨hr, congrArg AVLTreeNode.deleted hnode, (congrArg AVLTreeNode.value hnode).symm⟩
    · exact Or.inl (Or.inr ⟨k', h⟩)

theorem stored_put_of_ne (hne : rank key ≠ rank k)
    (h : (t.put key value).1.Stored k v) : t.Stored k v :=
  (stored_set h).resolve_right fun hc => hne hc.1

theorem stored_remove [Inhabited V] (h : (t.remove key).1.Stored k v) : t.Stored k v := by
  rcases stored_set h with h | ⟨-, h, -⟩
  · exact h
  · cases h

/-- The batch stores only what the transaction shows. -/
theorem stored_create_commit (h : (create t.commit).Stored k v) : t.Stored k v := by
  rcases h with ⟨k', h⟩ | ⟨k', h⟩
  · exact stored_of_view ((lookup_commit t (rank k)).symm.trans h)
  · cases h

/-! ## The transaction as an overlay -/

/-- The database under the nodes of the tree, in the order of a direction. -/
def overlay (t : LevelDBTransaction K V) (d : Direction) : Overlay (d.Rank O) where
  base := t.m_db.ranks d
  layer := t.m_tree.ranks d
  live := {x | ∃ node, t.m_tree.lookup (d.toRank x) = some node ∧ node.2.deleted = false}
  changed := {x | t.view (d.toRank x) ≠ t.m_db.lookup (d.toRank x)}
  live_subset := fun _ ⟨node, h, _⟩ => Option.isSome_iff_exists.mpr ⟨node, h⟩
  changed_subset := fun x hx => by
    have hx' : t.view (d.toRank x) ≠ t.m_db.lookup (d.toRank x) := hx
    rw [view] at hx'
    cases hnode : t.m_tree.lookup (d.toRank x) with
    | none =>
      rw [hnode] at hx'
      exact absurd rfl hx'
    | some node =>
      refine ⟨Option.isSome_iff_exists.mpr ⟨node, hnode⟩, ?_⟩
      cases hdel : node.2.deleted with
      | false => exact Or.inl ⟨node, hnode, hdel⟩
      | true =>
        rw [hnode] at hx'
        refine Or.inr (Option.isSome_iff_ne_none.mpr fun hdb => hx' ?_)
        simp [nodeEntry, hdel, hdb]
  live_iff_base := fun x hover hx => by
    have hx' : t.view (d.toRank x) = t.m_db.lookup (d.toRank x) := not_not.mp hx
    obtain ⟨⟨k, node⟩, hnode⟩ := Option.isSome_iff_exists.mp hover
    have hbase : x ∈ t.m_db.ranks d ↔ (t.view (d.toRank x)).isSome := by
      rw [hx']
      exact Iff.rfl
    rw [hbase, view, hnode]
    cases hdel : node.deleted <;> simp [nodeEntry, hnode, hdel]

theorem mem_view_iff :
    x ∈ (t.overlay d).view ↔ (t.view (d.toRank x)).isSome := by
  have hover : x ∈ (t.overlay d).layer ↔ (t.m_tree.lookup (d.toRank x)).isSome := Iff.rfl
  have hbase : x ∈ (t.overlay d).base ↔ (t.m_db.lookup (d.toRank x)).isSome := Iff.rfl
  have hlive : x ∈ (t.overlay d).live ↔
      ∃ node, t.m_tree.lookup (d.toRank x) = some node ∧ node.2.deleted = false := Iff.rfl
  rw [Overlay.view, Set.mem_ofPred_eq, hover, hbase, hlive, view]
  cases t.m_tree.lookup (d.toRank x) with
  | none => simp
  | some node => cases hd : node.2.deleted <;> simp [nodeEntry, hd]

end LevelDBTransaction

end LevelDB
end WebKit
