import WebKit.LevelDB.Transaction

/-!
# The iterator of a transaction

A `TransactionIterator` reads the view of a transaction with two cursors, one over the tree and one
over the database.  After every move `handleConflictsAndDeletes` settles them: equal keys move the
database cursor on, delete markers move the tree cursor on.  The cursor with the closest key is
then the current one.

Writes do not move the cursors.  A node added to the tree raises the flag `m_treeChanged`, and the
next read of the iterator refreshes the tree cursor: a cursor that stands on a node stays there, a
cursor at the end is placed anew next to the key of the database cursor.

This file has the operations of the iterator, what one settling does (`settled_handleLoop`), and
what holds of the cursors in every state, with writes in between (`Coherent`).
-/

namespace WebKit

open List SortedMap
namespace LevelDB

open LevelDBTransaction

variable {K V O : Type*} [Comparator K] [LinearOrder O] [Ranked K O]

/-! ## Operations -/

/-- Which of its two iterators `m_current` points to. -/
inductive Cursor where
  | treeIterator
  | dbIterator
  deriving DecidableEq

/-- The cursors are given by the keys they stand on, `none` for an invalid one. -/
structure TransactionIterator (K : Type*) where
  m_treeIterator : Option K
  m_dbIterator : Option K
  m_current : Option Cursor
  m_direction : Direction
  m_treeChanged : Bool

/-- Both branches seek; from an equal key `next` takes an extra step, while `prev` steps back from
the first key not below, or from the end. -/
def seekBeyond {α : Type*} (m : SortedMap K α) (k : K) : Direction → Option K
  | .forward =>
    match m.seek k with
    | some x => if compareKeys x k = 0 then m.next x else some x
    | none => none
  | .reverse =>
    match m.seek k with
    | some x => m.prev x
    | none => m.last

namespace LevelDBTransaction

/-- `TreeIterator::isDeleted` on a key of the tree. -/
def isDeleted (t : LevelDBTransaction K V) (k : K) : Bool :=
  match t.m_tree.find? k with
  | some node => node.2.deleted
  | none => false

end LevelDBTransaction

namespace TransactionIterator

def create : TransactionIterator K := ⟨none, none, none, .forward, false⟩

def isValid (it : TransactionIterator K) : Bool := it.m_current.isSome

def treeChanged (it : TransactionIterator K) : TransactionIterator K :=
  { it with m_treeChanged := true }

variable (t : LevelDBTransaction K V) (it : TransactionIterator K)

/-- The valid branch returns early and leaves the flag set; in reverse, a tree cursor that finds no
key at or above the key of the database stays invalid. -/
def refreshTreeIterator : TransactionIterator K :=
  match it.m_treeIterator with
  | some _ => it
  | none =>
    match it.m_dbIterator with
    | none => { it with m_treeChanged := false }
    | some k =>
      { it with
        m_treeIterator :=
          match it.m_direction with
          | .forward => seekBeyond t.m_tree k .forward
          | .reverse => (t.m_tree.seek k).bind t.m_tree.prev
        m_treeChanged := false }

def refreshIfChanged : TransactionIterator K :=
  if it.m_treeChanged then it.refreshTreeIterator t else it

/-- For equal keys the tree iterator takes precedence. -/
def handleConflict : TransactionIterator K :=
  match it.m_treeIterator, it.m_dbIterator with
  | some k, some k' =>
    if compareKeys k k' = 0 then { it with m_dbIterator := t.m_db.step it.m_direction k' } else it
  | _, _ => it

def handleLoop (t : LevelDBTransaction K V) : ℕ → TransactionIterator K → TransactionIterator K
  | 0, it => it
  | n + 1, it =>
    let it := it.handleConflict t
    match it.m_treeIterator with
    | none => it
    | some k =>
      if t.isDeleted k then
        handleLoop t n { it with m_treeIterator := t.m_tree.step it.m_direction k }
      else it

/-- Every turn but the last moves the tree cursor, so the loop ends. -/
def handleConflictsAndDeletes : TransactionIterator K :=
  handleLoop t (t.m_tree.entries.length + 1) it

/-- The database cursor becomes the current one only if its key is strictly closer. -/
def setCurrentIterator (closer : ℤ → Bool) (it : TransactionIterator K) : TransactionIterator K :=
  { it with
    m_current :=
      match it.m_treeIterator, it.m_dbIterator with
      | some k, some k' => if closer (compareKeys k' k) then some .dbIterator else some .treeIterator
      | some _, none => some .treeIterator
      | none, some _ => some .dbIterator
      | none, none => none }

def setCurrentIteratorToSmallestKey : TransactionIterator K → TransactionIterator K :=
  setCurrentIterator fun x => x < 0

def setCurrentIteratorToLargestKey : TransactionIterator K → TransactionIterator K :=
  setCurrentIterator fun x => x > 0

/-- What the moves do last. -/
def settle : TransactionIterator K :=
  match it.m_direction with
  | .forward => (it.handleConflictsAndDeletes t).setCurrentIteratorToSmallestKey
  | .reverse => (it.handleConflictsAndDeletes t).setCurrentIteratorToLargestKey

def seekToLast : TransactionIterator K :=
  settle t { it with
    m_treeIterator := t.m_tree.last
    m_dbIterator := t.m_db.last
    m_direction := .reverse }

def seek (target : K) : TransactionIterator K :=
  settle t { it with
    m_treeIterator := t.m_tree.seek target
    m_dbIterator := t.m_db.seek target
    m_direction := .forward }

/-- On a change of direction the other cursor is placed beyond the key of the current one. -/
def turn (t : LevelDBTransaction K V) (d : Direction) (it : TransactionIterator K) :
    TransactionIterator K :=
  if it.m_direction = d then it
  else
    match it.m_current with
    | some .dbIterator =>
      { it with
        m_treeIterator := it.m_dbIterator.bind fun k => seekBeyond t.m_tree k d
        m_direction := d }
    | _ =>
      { it with
        m_dbIterator := it.m_treeIterator.bind fun k => seekBeyond t.m_db k d
        m_direction := d }

/-- `m_current->next()` and `m_current->prev()`. -/
def stepCurrent : TransactionIterator K :=
  match it.m_current with
  | some .dbIterator =>
    { it with m_dbIterator := it.m_dbIterator.bind (t.m_db.step it.m_direction) }
  | _ => { it with m_treeIterator := it.m_treeIterator.bind (t.m_tree.step it.m_direction) }

/-- The body of `next` and `prev`; the iterator is asserted to be valid. -/
def move (d : Direction) (t : LevelDBTransaction K V) (it : TransactionIterator K) :
    TransactionIterator K :=
  if it.isValid then settle t ((it.refreshIfChanged t).turn t d |>.stepCurrent t) else it

def next : LevelDBTransaction K V → TransactionIterator K → TransactionIterator K := move .forward

def prev : LevelDBTransaction K V → TransactionIterator K → TransactionIterator K := move .reverse

/-- The key of the current cursor. -/
def currentKey (it : TransactionIterator K) : Option K :=
  match it.m_current with
  | none => none
  | some .treeIterator => it.m_treeIterator
  | some .dbIterator => it.m_dbIterator

/-- Reading the key refreshes the iterator. -/
def key : Option K × TransactionIterator K :=
  ((it.refreshIfChanged t).currentKey, it.refreshIfChanged t)

/-- The value of the current cursor. -/
def currentValue : Option V :=
  match it.m_current with
  | none => none
  | some .treeIterator =>
    (it.m_treeIterator.bind t.m_tree.find?).map fun node => node.2.value
  | some .dbIterator => (it.m_dbIterator.bind t.m_db.find?).map Prod.snd

def value : Option V × TransactionIterator K :=
  ((it.refreshIfChanged t).currentValue t, it.refreshIfChanged t)

end TransactionIterator

/-! ## Placing a cursor beyond a key -/

section SeekBeyond

variable {α : Type*}

/-- Stepping back from the first key not below `k` leads to the last key below `k`. -/
theorem isFirst_prev_of_seek {m : SortedMap K α} (h : m.seek k = some x) :
    IsFirst {y | y ∈ m.ranks .reverse ∧ Direction.reverse.ofRank (rank k) < y}
      (position .reverse (m.prev x)) := by
  have hseek := m.isFirst_seek k
  rw [h, position_some, IsFirst.coe_iff] at hseek
  obtain ⟨⟨-, hkx⟩, hle⟩ := hseek
  refine (m.isFirst_step .reverse x).congr fun y => and_congr_right fun hy => ?_
  -- in the dual order, `y` beyond `x` or beyond `k` means `y` below it
  constructor
  · intro hxy
    have hyx : (OrderDual.ofDual y : O) < rank x := hxy
    by_contra hc
    have hky : (rank k : O) ≤ OrderDual.ofDual y := not_lt.mp fun hlt => hc hlt
    have hxy' : (rank x : O) ≤ OrderDual.ofDual y := hle _ ⟨hy, hky⟩
    exact absurd hyx (not_lt.mpr hxy')
  · intro hky
    have hyk : (OrderDual.ofDual y : O) < rank k := hky
    have hkx' : (rank k : O) ≤ rank x := hkx
    exact hyk.trans_le hkx'

theorem isFirst_seekBeyond (m : SortedMap K α) (k : K) (d : Direction) :
    IsFirst {y | y ∈ m.ranks d ∧ d.ofRank (rank k) < y} (position d (seekBeyond m k d)) := by
  have hseek := m.isFirst_seek k
  cases d with
  | forward =>
    cases h : m.seek k with
    | none =>
      rw [h, position_none, IsFirst.top_iff] at hseek
      rw [seekBeyond, h, position_none, IsFirst.top_iff]
      exact fun y hy => hseek y ⟨hy.1, hy.2.le⟩
    | some x =>
      rw [seekBeyond, h]
      simp only
      split
      · next heq =>
        have hr : rank x = rank k := compare_eq_zero_iff.mp heq
        rw [← hr]
        exact m.isFirst_step .forward x
      · next hne =>
        have hr : (rank x : O) ≠ rank k := fun hc => hne (compare_eq_zero_iff.mpr hc)
        rw [h, position_some, IsFirst.coe_iff] at hseek
        rw [position_some, IsFirst.coe_iff]
        refine ⟨⟨hseek.1.1, lt_of_le_of_ne hseek.1.2 (Ne.symm hr)⟩, fun y hy => ?_⟩
        exact hseek.2 y ⟨hy.1, hy.2.le⟩
  | reverse =>
    cases h : m.seek k with
    | none =>
      rw [h, position_none, IsFirst.top_iff] at hseek
      rw [seekBeyond, h]
      refine m.isFirst_last.congr fun y => ⟨fun hy => ⟨hy, ?_⟩, fun hy => hy.1⟩
      by_contra hc
      exact hseek (OrderDual.ofDual y) ⟨hy, not_lt.mp hc⟩
    | some x =>
      rw [seekBeyond, h]
      exact isFirst_prev_of_seek h

end SeekBeyond

/-! ## Settling the cursors -/

section Settle

variable {α : Type*}

theorem countP_lt_countP {l : List α} (h : ∀ a ∈ l, p a = true → q a = true) (ha : a ∈ l)
    (hq : q a = true) (hp : p a = false) : l.countP p < l.countP q := by
  induction l with
  | nil => simp at ha
  | cons b l ih =>
    have hle : l.countP p ≤ l.countP q := countP_mono_left fun c hc => h c (mem_cons_of_mem b hc)
    rw [countP_cons, countP_cons]
    rcases mem_cons.mp ha with rfl | ha
    · rw [hq, hp]
      simp only [Bool.false_eq_true, if_false, if_true]
      omega
    · have := ih (fun c hc => h c (mem_cons_of_mem b hc)) ha
      have hb : p b = true → q b = true := h b (mem_cons_self ..)
      cases hpb : p b with
      | true =>
        rw [hb hpb]
        omega
      | false =>
        simp only [Bool.false_eq_true, if_false]
        omega

/-- How many entries lie at or beyond a position. -/
def remaining (m : SortedMap K α) (d : Direction) (p : WithTop (d.Rank O)) : ℕ :=
  m.entries.countP fun e => p ≤ (d.ofRank (rank e.1) : d.Rank O)

variable {d : Direction}

theorem remaining_mono {m : SortedMap K α} (h : p ≤ q) :
    remaining m d q ≤ remaining m d p := by
  refine countP_mono_left fun e _ he => ?_
  rw [decide_eq_true_iff] at he ⊢
  exact h.trans he

section

variable {m : SortedMap K α} {k : K} (hk : (m.lookup (rank k)).isSome)
include hk

theorem remaining_lt {p : WithTop (d.Rank O)} (h : (d.ofRank (rank k) : d.Rank O) < p) :
    remaining m d p < remaining m d (position d (some k)) := by
  obtain ⟨e, he, hr⟩ := lookup_isSome_iff.mp hk
  refine countP_lt_countP (fun a _ hp => ?_) he ?_ ?_
  · rw [decide_eq_true_iff] at hp ⊢
    exact h.le.trans hp
  · rw [decide_eq_true_iff, hr]
    exact le_rfl
  · rw [decide_eq_false_iff_not, hr]
    exact not_le.mpr h

theorem remaining_step :
    remaining m d (position d (m.step d k)) < remaining m d (position d (some k)) := by
  refine remaining_lt hk ?_
  cases hc : position d (m.step d k) with
  | top => exact WithTop.coe_lt_top _
  | coe y => exact WithTop.coe_lt_coe.mpr ((m.isFirst_step d k).mem y hc).2

end

end Settle

namespace TransactionIterator

variable {t : LevelDBTransaction K V} {it : TransactionIterator K} {d : Direction}

/-- The cursors stand on keys of the tree and of the database. -/
structure OnKeys (t : LevelDBTransaction K V) (it : TransactionIterator K) : Prop where
  tree : ∀ k, it.m_treeIterator = some k → t.m_tree.HasKey k
  db : ∀ k, it.m_dbIterator = some k → t.m_db.HasKey k

variable {k : K}

theorem mem_live_iff (hk : (t.m_tree.lookup (rank k)).isSome) :
    (d.ofRank (rank k) : d.Rank O) ∈ (t.overlay d).live ↔ t.isDeleted k = false := by
  obtain ⟨node, hnode⟩ := Option.isSome_iff_exists.mp hk
  have hlive : (d.ofRank (rank k) : d.Rank O) ∈ (t.overlay d).live ↔
      ∃ node, t.m_tree.lookup (d.toRank (d.ofRank (rank k))) = some node ∧
        node.2.deleted = false := Iff.rfl
  rw [hlive, isDeleted, find?_eq_lookup, Direction.toRank_ofRank, hnode]
  simp

theorem mem_base_iff :
    (d.ofRank (rank k) : d.Rank O) ∈ (t.overlay d).base ↔ (t.m_db.lookup (rank k)).isSome := by
  have : (d.ofRank (rank k) : d.Rank O) ∈ (t.overlay d).base ↔
      (t.m_db.lookup (d.toRank (d.ofRank (rank k)))).isSome := Iff.rfl
  rw [this, Direction.toRank_ofRank]

theorem mem_layer_iff :
    (d.ofRank (rank k) : d.Rank O) ∈ (t.overlay d).layer ↔ (t.m_tree.lookup (rank k)).isSome := by
  have : (d.ofRank (rank k) : d.Rank O) ∈ (t.overlay d).layer ↔
      (t.m_tree.lookup (d.toRank (d.ofRank (rank k)))).isSome := Iff.rfl
  rw [this, Direction.toRank_ofRank]

theorem mem_changed_iff : (d.ofRank (rank k) : d.Rank O) ∈ (t.overlay d).changed ↔
      t.view (rank k) ≠ t.m_db.lookup (rank k) := by
  have : (d.ofRank (rank k) : d.Rank O) ∈ (t.overlay d).changed ↔
      t.view (d.toRank (d.ofRank (rank k))) ≠ t.m_db.lookup (d.toRank (d.ofRank (rank k))) :=
    Iff.rfl
  rw [this, Direction.toRank_ofRank]

theorem OnKeys.position_db (h : OnKeys t it) (d : Direction) (x : d.Rank O)
    (hx : position d it.m_dbIterator = x) : x ∈ (t.overlay d).base := by
  obtain ⟨k, hk, rfl⟩ := position_eq_coe_iff.mp hx
  exact mem_base_iff.mpr (h.db k hk).isSome

theorem handleConflict_eq (t : LevelDBTransaction K V) (it : TransactionIterator K) :
    it.handleConflict t = { it with m_dbIterator := (it.handleConflict t).m_dbIterator } := by
  unfold handleConflict
  split
  · split <;> rfl
  · rfl

theorem conflict_handleConflict (hd : it.m_direction = d) :
    (t.overlay d).Conflict (position d it.m_treeIterator) (position d it.m_dbIterator)
      (position d (it.handleConflict t).m_dbIterator) := by
  unfold handleConflict
  split
  · next k k' hk hk' =>
    rw [hk, hk']
    split
    · next heq =>
      have hr : rank k = rank k' := compare_eq_zero_iff.mp heq
      refine Or.inl ⟨d.ofRank (rank k'), by rw [position_some, hr], rfl, ?_⟩
      rw [hd]
      exact t.m_db.isFirst_step d k'
    · next hne =>
      refine Or.inr ⟨Or.inl fun hc => hne ?_, by rw [hk']⟩
      exact compare_eq_zero_iff.mpr (Direction.ofRank_inj.mp (WithTop.coe_injective hc))
  · next hnot =>
    refine Or.inr ⟨?_, rfl⟩
    cases hδ : it.m_dbIterator with
    | none => exact Or.inr rfl
    | some k' =>
      cases hτ : it.m_treeIterator with
      | none => simp
      | some k => exact absurd hδ (hnot k k' hτ)

theorem OnKeys.handleConflict (h : OnKeys t it) : OnKeys t (it.handleConflict t) := by
  refine ⟨fun k hk => h.tree k ?_, ?_⟩
  · rw [handleConflict_eq] at hk
    exact hk
  · unfold TransactionIterator.handleConflict
    split
    · next k k' hk hk' =>
      split
      · exact fun x hx => hasKey_of_step hx
      · exact h.db
    · exact h.db

/-- What settling does, and that it keeps the rest of the iterator. -/
structure HandledTo (t : LevelDBTransaction K V) (d : Direction) (it it' : TransactionIterator K) :
    Prop where
  settled : (t.overlay d).Settled (position d it.m_treeIterator) (position d it.m_dbIterator)
    (position d it'.m_treeIterator) (position d it'.m_dbIterator)
  onKeys : OnKeys t it'
  direction : it'.m_direction = d
  current : it'.m_current = it.m_current
  treeChanged : it'.m_treeChanged = it.m_treeChanged

theorem settled_handleLoop (n : ℕ) (hd : it.m_direction = d)
    (hn : remaining t.m_tree d (position d it.m_treeIterator) < n) (h : OnKeys t it) :
    HandledTo t d it (handleLoop t n it) := by
  induction n generalizing it with
  | zero => omega
  | succ n ih =>
    have hconf := conflict_handleConflict (t := t) hd
    have heq := handleConflict_eq t it
    have hτ : (it.handleConflict t).m_treeIterator = it.m_treeIterator := by rw [heq]
    have hdir : (it.handleConflict t).m_direction = d := by rw [heq, hd]
    have hcur : (it.handleConflict t).m_current = it.m_current := by rw [heq]
    have hch : (it.handleConflict t).m_treeChanged = it.m_treeChanged := by rw [heq]
    rw [handleLoop]
    simp only [hτ]
    cases hk : it.m_treeIterator with
    | none =>
      -- at the end of the tree nothing moves
      have hδ : position d (it.handleConflict t).m_dbIterator = position d it.m_dbIterator := by
        rcases hconf with ⟨x, hx, -⟩ | ⟨-, hx⟩
        · rw [hk] at hx
          exact absurd hx (by simp)
        · exact hx
      refine ⟨?_, h.handleConflict, hdir, hcur, hch⟩
      rw [hτ, hk, hδ]
      exact Overlay.Settled.of_top (h.position_db d)
    | some k =>
      have hmem := (h.tree k hk).isSome
      rw [hk] at hconf hn
      simp only
      split
      · next hdel =>
        -- a marker: both cursors leave it and the loop goes on
        have hrem := remaining_step (d := d) hmem
        rw [hdir]
        have hkeys : OnKeys t ⟨t.m_tree.step d k, (it.handleConflict t).m_dbIterator,
            (it.handleConflict t).m_current, d, (it.handleConflict t).m_treeChanged⟩ :=
          ⟨fun x hx => hasKey_of_step hx, h.handleConflict.db⟩
        obtain ⟨hs, hkeys', hdir', hcur', hch'⟩ := ih rfl (show remaining t.m_tree d
          (position d (t.m_tree.step d k)) < n by omega) hkeys
        refine ⟨?_, hkeys', hdir', hcur'.trans hcur, hch'.trans hch⟩
        rw [hk]
        exact Overlay.Settled.of_marker (mem_layer_iff.mpr hmem)
          (fun hc => absurd ((mem_live_iff hmem).mp hc) (by simp [hdel]))
          (t.m_tree.isFirst_step d k) (h.position_db d) hconf hs
      · next hdel =>
        refine ⟨?_, h.handleConflict, hdir, hcur, hch⟩
        rw [hτ, hk]
        exact Overlay.Settled.of_live
          ((mem_live_iff hmem).mpr (by simpa using hdel)) (h.position_db d) hconf

theorem remaining_le_length {α : Type*} (m : SortedMap K α) (d : Direction)
    (p : WithTop (d.Rank O)) : remaining m d p ≤ m.entries.length :=
  countP_le_length

theorem handledTo_handleConflictsAndDeletes (hd : it.m_direction = d) (h : OnKeys t it) :
    HandledTo t d it (it.handleConflictsAndDeletes t) :=
  settled_handleLoop _ hd (Nat.lt_succ_of_le (remaining_le_length _ _ _)) h

/-! ## Choosing the current cursor -/

/-- The cursors after a move: settled, and the closer one current. -/
structure SettledTo (t : LevelDBTransaction K V) (d : Direction) (it it' : TransactionIterator K) :
    Prop where
  settled : (t.overlay d).Settled (position d it.m_treeIterator) (position d it.m_dbIterator)
    (position d it'.m_treeIterator) (position d it'.m_dbIterator)
  onKeys : OnKeys t it'
  direction : it'.m_direction = d
  treeChanged : it'.m_treeChanged = it.m_treeChanged
  tree : it'.m_current = some .treeIterator → (∃ k, it'.m_treeIterator = some k) ∧
    position d it'.m_treeIterator ≤ position d it'.m_dbIterator
  db : it'.m_current = some .dbIterator → (∃ k, it'.m_dbIterator = some k) ∧
    position d it'.m_dbIterator < position d it'.m_treeIterator
  none : it'.m_current = none → it'.m_treeIterator = none ∧ it'.m_dbIterator = none

theorem settledTo_setCurrentIterator (hcloser : ∀ k k' : K, closer (compareKeys k' k) = true ↔
      (d.ofRank (rank k') : d.Rank O) < d.ofRank (rank k))
    (h : HandledTo t d it it') : SettledTo t d it (it'.setCurrentIterator closer) := by
  refine ⟨h.settled, ⟨h.onKeys.tree, h.onKeys.db⟩, h.direction, h.treeChanged, ?_, ?_, ?_⟩
  all_goals
    simp only [setCurrentIterator]
    cases hτ : it'.m_treeIterator with
    | none => cases hδ : it'.m_dbIterator <;> simp
    | some k =>
      cases hδ : it'.m_dbIterator with
      | none => simp
      | some k' =>
        have hk := hcloser k k'
        by_cases hc : closer (compareKeys k' k) = true
        · simp [hc, hk.mp hc]
        · simp [hc, not_lt.mp fun hlt => hc (hk.mpr hlt)]

theorem settledTo_settle (hd : it.m_direction = d) (h : OnKeys t it) :
    SettledTo t d it (it.settle t) := by
  have hh := handledTo_handleConflictsAndDeletes hd h
  rw [settle, hd]
  cases d with
  | forward =>
    refine settledTo_setCurrentIterator (fun k k' => ?_) hh
    rw [decide_eq_true_iff, compare_neg_iff]
    rfl
  | reverse =>
    refine settledTo_setCurrentIterator (fun k k' => ?_) hh
    rw [decide_eq_true_iff, gt_iff_lt, compare_pos_iff]
    rfl

theorem SettledTo.position_currentKey (h : SettledTo t d it it') :
    position d it'.currentKey =
      min (position d it'.m_treeIterator) (position d it'.m_dbIterator) := by
  rw [currentKey]
  cases hc : it'.m_current with
  | none =>
    obtain ⟨hτ, hδ⟩ := h.none hc
    rw [hτ, hδ, min_self]
  | some c =>
    cases c with
    | treeIterator => exact (min_eq_left (h.tree hc).2).symm
    | dbIterator => exact (min_eq_right (h.db hc).2.le).symm

/-- What holds of the cursors in every state, also with writes in between: beside a current tree
cursor stands the next key of the database, beside a current database cursor some node beyond. -/
structure Coherent (t : LevelDBTransaction K V) (it : TransactionIterator K) : Prop where
  onKeys : OnKeys t it
  tree : it.m_current = some .treeIterator → ∃ k, it.m_treeIterator = some k ∧
    IsFirst {x | x ∈ (t.overlay it.m_direction).base ∧ it.m_direction.ofRank (rank k) < x}
      (position it.m_direction it.m_dbIterator)
  db : it.m_current = some .dbIterator → ∃ k, it.m_dbIterator = some k ∧
    (it.m_direction.ofRank (rank k) : WithTop (it.m_direction.Rank O)) <
      position it.m_direction it.m_treeIterator
  none : it.m_current = none → it.m_treeIterator = none ∧ it.m_dbIterator = none

theorem coherent_create (t : LevelDBTransaction K V) : Coherent t create :=
  ⟨⟨nofun, nofun⟩, nofun, nofun, fun _ => ⟨rfl, rfl⟩⟩

/-- The cursors before settling, placed to find the first key of `U`. -/
structure Ready (t : LevelDBTransaction K V) (d : Direction) (U : Set (d.Rank O))
    (it : TransactionIterator K) : Prop where
  direction : it.m_direction = d
  onKeys : OnKeys t it
  upper : IsUpperSet U
  base : IsFirst {x | x ∈ (t.overlay d).base ∧ x ∈ U} (position d it.m_dbIterator)
  tree : ∀ x : d.Rank O, position d it.m_treeIterator = x → x ∈ U

namespace Ready

variable {U : Set (d.Rank O)}

theorem coherent (h : Ready t d U it) : Coherent t (it.settle t) := by
  have hs := settledTo_settle h.direction h.onKeys
  obtain rfl := hs.direction
  refine ⟨hs.onKeys, fun hc => ?_, fun hc => ?_, hs.none⟩
  · obtain ⟨⟨k, hk⟩, hle⟩ := hs.tree hc
    refine ⟨k, hk, hs.settled.base_after (by rw [hk]; rfl) hle fun b hb hlt => ?_⟩
    have hkU : (it.settle t).m_direction.ofRank (rank k) ∈ U :=
      Overlay.Settled.mem_of_le h.upper h.tree
        (hs.settled.live.mem _ (by rw [hk, position_some])).2
    exact h.base.le b ⟨hb, h.upper hlt.le hkU⟩
  · obtain ⟨⟨k, hk⟩, hlt⟩ := hs.db hc
    exact ⟨k, hk, by rw [hk] at hlt; exact hlt⟩

theorem direction_settle (h : Ready t d U it) : (it.settle t).m_direction = d :=
  (settledTo_settle h.direction h.onKeys).direction

/-- **A move to the first key of the view.** -/
theorem isFirst (h : Ready t d U it)
    (hcover : (t.overlay d).Covers U (position d it.m_treeIterator)) :
    IsFirst {x | x ∈ (t.overlay d).view ∧ x ∈ U} (position d (it.settle t).currentKey) := by
  have hs := settledTo_settle h.direction h.onKeys
  rw [hs.position_currentKey]
  exact hs.settled.isFirst_view h.upper h.base hcover h.tree

end Ready

/-! ## Reading the iterator -/

/-- The key and the value a user of the iterator reads. -/
def entry (t : LevelDBTransaction K V) (it : TransactionIterator K) : Option (K × V) :=
  (it.key t).1.bind fun k => (it.value t).1.map fun v => (k, v)

/-- Refreshing keeps all but the tree cursor, and a tree cursor on a node too. -/
structure RefreshedTo (it it' : TransactionIterator K) : Prop where
  db : it'.m_dbIterator = it.m_dbIterator
  current : it'.m_current = it.m_current
  direction : it'.m_direction = it.m_direction
  tree : ∀ k, it.m_treeIterator = some k → it'.m_treeIterator = some k

theorem refreshedTo_refreshIfChanged (t : LevelDBTransaction K V) (it : TransactionIterator K) :
    RefreshedTo it (it.refreshIfChanged t) := by
  rw [refreshIfChanged]
  split
  · rw [refreshTreeIterator]
    split
    · exact ⟨rfl, rfl, rfl, fun k hk => hk⟩
    · next hτ =>
      split
      · exact ⟨rfl, rfl, rfl, fun k hk => hk⟩
      · exact ⟨rfl, rfl, rfl, fun k hk => absurd (hτ.symm.trans hk) (by simp)⟩
  · exact ⟨rfl, rfl, rfl, fun k hk => hk⟩

theorem hasKey_of_seekBeyond {α : Type*} {m : SortedMap K α}
    (h : seekBeyond m k d = some k') : m.HasKey k' := by
  cases d with
  | forward =>
    rw [seekBeyond] at h
    split at h
    · next x hx =>
      split at h
      · exact hasKey_of_step (d := .forward) h
      · exact Option.some_inj.mp h ▸ hasKey_of_seek hx
    · cases h
  | reverse =>
    rw [seekBeyond] at h
    split at h
    · exact hasKey_of_step (d := .reverse) h
    · exact hasKey_of_last h

/-- A tree cursor that a refresh places lies beyond the key of the database cursor. -/
theorem refreshed_tree (hτ : it.m_treeIterator = none) (hδ : it.m_dbIterator = some k)
    (h : (it.refreshIfChanged t).m_treeIterator = some k') :
    t.m_tree.HasKey k' ∧
      (it.m_direction.ofRank (rank k) : it.m_direction.Rank O) < it.m_direction.ofRank (rank k') := by
  rw [refreshIfChanged] at h
  split at h
  · rw [refreshTreeIterator, hτ, hδ] at h
    cases hd : it.m_direction with
    | forward =>
      rw [hd] at h
      replace h : seekBeyond t.m_tree k .forward = some k' := h
      refine ⟨hasKey_of_seekBeyond h, ?_⟩
      exact ((isFirst_seekBeyond t.m_tree k .forward).mem _ (by rw [h]; rfl)).2
    | reverse =>
      rw [hd] at h
      obtain ⟨x, hx, hx'⟩ := Option.bind_eq_some_iff.mp h
      refine ⟨hasKey_of_step (d := .reverse) hx', ?_⟩
      exact ((isFirst_prev_of_seek hx).mem _ (by rw [hx']; rfl)).2
  · exact absurd (hτ.symm.trans h) (by simp)

theorem refreshIfChanged_of_unchanged (h : it.m_treeChanged = false) :
    it.refreshIfChanged t = it := by
  rw [refreshIfChanged, if_neg (by simp [h])]

theorem refreshIfChanged_of_none (hτ : it.m_treeIterator = none) (hδ : it.m_dbIterator = none) :
    (it.refreshIfChanged t).m_treeIterator = none := by
  rw [refreshIfChanged]
  split
  · rw [refreshTreeIterator, hτ, hδ]
  · exact hτ

omit [Comparator K] in
theorem currentKey_of_tree (hc : it.m_current = some .treeIterator) :
    it.currentKey = it.m_treeIterator := by
  rw [currentKey, hc]

omit [Comparator K] in
theorem currentKey_of_db (hc : it.m_current = some .dbIterator) :
    it.currentKey = it.m_dbIterator := by
  rw [currentKey, hc]

omit [Comparator K] in
theorem currentKey_of_none (hc : it.m_current = none) : it.currentKey = none := by
  rw [currentKey, hc]

namespace Coherent

section

variable (h : Coherent t it)
include h

theorem onKeys_refresh : OnKeys t (it.refreshIfChanged t) := by
  have hr := refreshedTo_refreshIfChanged t it
  refine ⟨fun k' hk' => ?_, fun k hk => h.onKeys.db k (hr.db ▸ hk)⟩
  cases hτ : it.m_treeIterator with
  | some k =>
    rw [hr.tree k hτ] at hk'
    exact h.onKeys.tree k' (hτ.trans hk')
  | none =>
    cases hδ : it.m_dbIterator with
    | none => exact absurd ((refreshIfChanged_of_none hτ hδ).symm.trans hk') (by simp)
    | some k => exact (refreshed_tree hτ hδ hk').1

theorem refresh : Coherent t (it.refreshIfChanged t) := by
  have hr := refreshedTo_refreshIfChanged t it
  have hkeys := h.onKeys_refresh
  -- the refreshed iterator as fields, so that its direction is the old one
  obtain ⟨⟨τ, δ, c, e, f⟩, hit⟩ : ∃ it', it.refreshIfChanged t = it' := ⟨_, rfl⟩
  rw [hit] at hr hkeys ⊢
  obtain rfl : δ = it.m_dbIterator := hr.db
  obtain rfl : c = it.m_current := hr.current
  obtain rfl : e = it.m_direction := hr.direction
  refine ⟨hkeys, fun hc => ?_, fun hc => ?_, fun hc => ?_⟩
  · obtain ⟨k, hk, hfirst⟩ := h.tree hc
    exact ⟨k, hr.tree k hk, hfirst⟩
  · obtain ⟨k, hk, hlt⟩ := h.db hc
    refine ⟨k, hk, ?_⟩
    cases hτ : it.m_treeIterator with
    | some k' =>
      have : τ = some k' := hr.tree k' hτ
      rw [hτ] at hlt
      rw [this]
      exact hlt
    | none =>
      cases hτ' : τ with
      | none => exact WithTop.coe_lt_top _
      | some k' => exact WithTop.coe_lt_coe.mpr (refreshed_tree hτ hk (by rw [hit, hτ'])).2
  · obtain ⟨hτ, hδ⟩ := h.none hc
    have := refreshIfChanged_of_none (t := t) hτ hδ
    rw [hit] at this
    exact ⟨this, hδ⟩

theorem currentKey_refresh : (it.refreshIfChanged t).currentKey = it.currentKey := by
  have hr := refreshedTo_refreshIfChanged t it
  rw [currentKey, currentKey, hr.current, hr.db]
  cases hc : it.m_current with
  | none => rfl
  | some c =>
    cases c with
    | treeIterator =>
      obtain ⟨k, hk, -⟩ := h.tree hc
      exact (hr.tree k hk).trans hk.symm
    | dbIterator => rfl

theorem currentValue_refresh : (it.refreshIfChanged t).currentValue t = it.currentValue t := by
  have hr := refreshedTo_refreshIfChanged t it
  rw [currentValue, currentValue, hr.current, hr.db]
  cases hc : it.m_current with
  | none => rfl
  | some c =>
    cases c with
    | treeIterator =>
      obtain ⟨k, hk, -⟩ := h.tree hc
      rw [hr.tree k hk, hk]
    | dbIterator => rfl

/-- A read does not depend on the refresh it makes. -/
theorem entry_eq :
    it.entry t = it.currentKey.bind fun k => (it.currentValue t).map fun v => (k, v) := by
  rw [entry, key, value, h.currentKey_refresh, h.currentValue_refresh]

theorem currentKey_isSome : it.currentKey.isSome = it.isValid := by
  rw [currentKey, isValid]
  cases hc : it.m_current with
  | none => rfl
  | some c =>
    cases c with
    | treeIterator =>
      obtain ⟨k, hk, -⟩ := h.tree hc
      rw [hk]
      rfl
    | dbIterator =>
      obtain ⟨k, hk, -⟩ := h.db hc
      rw [hk]
      rfl

end

end Coherent

/-- The entry read on a live node, or on an unchanged key of the database, is the one of the
view. -/
theorem Ready.entry (h : Ready t d U it)
    (hcover : (t.overlay d).Covers U (position d it.m_treeIterator))
    (hk : (it.settle t).currentKey = some k) : (it.settle t).entry t = t.view (rank k) := by
  have hs := settledTo_settle h.direction h.onKeys
  rw [h.coherent.entry_eq, hk]
  cases hc : (it.settle t).m_current with
  | none => exact absurd ((currentKey_of_none hc).symm.trans hk) (by simp)
  | some c =>
    cases c with
    | treeIterator =>
      rw [currentKey_of_tree hc] at hk
      obtain ⟨node, hnode⟩ := hs.onKeys.tree k hk
      have hlive := (hs.settled.live.mem (d.ofRank (rank k)) (by rw [hk]; rfl)).1
      rw [mem_live_iff (hs.onKeys.tree k hk).isSome, isDeleted, find?_eq_lookup, hnode] at hlive
      replace hlive : node.deleted = false := hlive
      simp [currentValue, hc, hk, find?_eq_lookup, hnode, view, nodeEntry, hlive]
    | dbIterator =>
      rw [currentKey_of_db hc] at hk
      obtain ⟨v, hv⟩ := hs.onKeys.db k hk
      have hno := hs.settled.notMem_changed h.upper h.base hcover (hs.db hc).2
        (x := d.ofRank (rank k)) (by rw [hk]; rfl)
      rw [mem_changed_iff, not_not] at hno
      rw [hno]
      simp [currentValue, hc, hk, find?_eq_lookup, hv]

/-! ## Where the moves place the cursors -/

theorem ready_seek (t : LevelDBTransaction K V) (it : TransactionIterator K) (target : K) :
    Ready t .forward {x | Direction.forward.ofRank (rank target) ≤ x}
      ⟨t.m_tree.seek target, t.m_db.seek target, it.m_current, .forward, it.m_treeChanged⟩ where
  direction := rfl
  onKeys := ⟨fun _ h => hasKey_of_seek h, fun _ h => hasKey_of_seek h⟩
  upper := isUpperSet_Ici _
  base := t.m_db.isFirst_seek target
  tree x hx := ((t.m_tree.isFirst_seek target).mem x hx).2

/-- A seek finds the first entry of the view at or beyond its target. -/
theorem isFirst_seek_currentKey (t : LevelDBTransaction K V) (it : TransactionIterator K)
    (target : K) :
    IsFirst {x | x ∈ (t.overlay .forward).view ∧ Direction.forward.ofRank (rank target) ≤ x}
      (position .forward (it.seek t target).currentKey) :=
  (ready_seek t it target).isFirst (Overlay.covers_of_isFirst (t.m_tree.isFirst_seek target))

theorem ready_seekToLast (t : LevelDBTransaction K V) (it : TransactionIterator K) :
    Ready t .reverse Set.univ
      ⟨t.m_tree.last, t.m_db.last, it.m_current, .reverse, it.m_treeChanged⟩ where
  direction := rfl
  onKeys := ⟨fun _ h => hasKey_of_last h, fun _ h => hasKey_of_last h⟩
  upper := isUpperSet_univ
  base := t.m_db.isFirst_last.congr fun _ => (and_iff_left trivial).symm
  tree _ _ := trivial

/-- The cursors `move` settles. -/
def moved (d : Direction) (t : LevelDBTransaction K V) (it : TransactionIterator K) :
    TransactionIterator K :=
  ((it.refreshIfChanged t).turn t d).stepCurrent t

theorem move_eq (h : it.isValid = true) : it.move d t = (it.moved d t).settle t := if_pos h

omit [Comparator K] in
theorem cursor_of_currentKey (hk : it.currentKey = some k) :
    it.m_current = some .treeIterator ∧ it.m_treeIterator = some k ∨
      it.m_current = some .dbIterator ∧ it.m_dbIterator = some k := by
  cases hc : it.m_current with
  | none => exact absurd ((currentKey_of_none hc).symm.trans hk) (by simp)
  | some c =>
    cases c with
    | treeIterator => exact Or.inl ⟨rfl, (currentKey_of_tree hc).symm.trans hk⟩
    | dbIterator => exact Or.inr ⟨rfl, (currentKey_of_db hc).symm.trans hk⟩

/-- From the current key on, the database cursor is placed on the next key; so is the tree cursor,
except beside a current database cursor that keeps its direction. -/
theorem turn_stepCurrent (h : Coherent t it) (hk : it.currentKey = some k) (d : Direction) :
    Ready t d {x | d.ofRank (rank k) < x} ((it.turn t d).stepCurrent t) ∧
      ((it.m_direction = d ∧ it.m_current = some .dbIterator ∧
          ((it.turn t d).stepCurrent t).m_treeIterator = it.m_treeIterator) ∨
        IsFirst {x | x ∈ (t.overlay d).layer ∧ d.ofRank (rank k) < x}
          (position d ((it.turn t d).stepCurrent t).m_treeIterator)) := by
  have hupper : IsUpperSet {x : d.Rank O | d.ofRank (rank k) < x} := isUpperSet_Ioi _
  rcases cursor_of_currentKey hk with ⟨hc, hτ⟩ | ⟨hc, hδ⟩
  · -- the tree cursor is current and steps on
    have hfirst := t.m_tree.isFirst_step d k
    by_cases hd : it.m_direction = d
    · obtain ⟨k', hk', hbase⟩ := h.tree hc
      obtain rfl : k' = k := Option.some_inj.mp (hk'.symm.trans hτ)
      subst hd
      have heq : (it.turn t it.m_direction).stepCurrent t =
          ⟨t.m_tree.step it.m_direction k', it.m_dbIterator, it.m_current, it.m_direction,
            it.m_treeChanged⟩ := by
        rw [turn, if_pos rfl, stepCurrent, hc, hτ]
        rfl
      rw [heq]
      exact ⟨⟨rfl, ⟨fun _ => hasKey_of_step, h.onKeys.db⟩, hupper, hbase,
        fun x hx => (hfirst.mem x hx).2⟩, Or.inr hfirst⟩
    · have heq : (it.turn t d).stepCurrent t =
          ⟨t.m_tree.step d k, seekBeyond t.m_db k d, it.m_current, d, it.m_treeChanged⟩ := by
        rw [turn, if_neg hd, hc]
        rw [stepCurrent]
        simp [hτ]
      rw [heq]
      exact ⟨⟨rfl, ⟨fun _ => hasKey_of_step, fun _ => hasKey_of_seekBeyond⟩, hupper,
        isFirst_seekBeyond t.m_db k d, fun x hx => (hfirst.mem x hx).2⟩, Or.inr hfirst⟩
  · -- the database cursor is current and steps on
    by_cases hd : it.m_direction = d
    · obtain ⟨k', hk', hlt⟩ := h.db hc
      obtain rfl : k' = k := Option.some_inj.mp (hk'.symm.trans hδ)
      subst hd
      have heq : (it.turn t it.m_direction).stepCurrent t =
          ⟨it.m_treeIterator, t.m_db.step it.m_direction k', it.m_current, it.m_direction,
            it.m_treeChanged⟩ := by
        rw [turn, if_pos rfl, stepCurrent, hc, hδ]
        rfl
      rw [heq]
      exact ⟨⟨rfl, ⟨h.onKeys.tree, fun _ => hasKey_of_step⟩, hupper,
        t.m_db.isFirst_step _ k', fun x hx => WithTop.coe_lt_coe.mp (hx ▸ hlt)⟩,
        Or.inl ⟨rfl, hc, rfl⟩⟩
    · have hfirst := isFirst_seekBeyond t.m_tree k d
      have heq : (it.turn t d).stepCurrent t =
          ⟨seekBeyond t.m_tree k d, t.m_db.step d k, it.m_current, d, it.m_treeChanged⟩ := by
        rw [turn, if_neg hd, hc]
        rw [stepCurrent]
        simp [hδ]
      rw [heq]
      exact ⟨⟨rfl, ⟨fun _ => hasKey_of_seekBeyond, fun _ => hasKey_of_step⟩, hupper,
        t.m_db.isFirst_step d k, fun x hx => (hfirst.mem x hx).2⟩, Or.inr hfirst⟩

/-- The tree cursor of a step that may skip nodes: the database cursor is current and the direction
stays. -/
def Straight (it : TransactionIterator K) (d : Direction) : Prop :=
  it.m_direction = d ∧ it.m_current = some .dbIterator

theorem ready_moved (h : Coherent t it) (hk : it.currentKey = some k) (d : Direction) :
    Ready t d {x | d.ofRank (rank k) < x} (it.moved d t) :=
  (turn_stepCurrent h.refresh (h.currentKey_refresh.trans hk) d).1

/-- Only a straight step can skip nodes, those in front of the refreshed tree cursor. -/
theorem covers_moved (h : Coherent t it) (hk : it.currentKey = some k) (d : Direction)
    (hcover : it.Straight d → (t.overlay d).Covers {x | d.ofRank (rank k) < x}
      (position d (it.refreshIfChanged t).m_treeIterator)) :
    (t.overlay d).Covers {x | d.ofRank (rank k) < x} (position d (it.moved d t).m_treeIterator) := by
  have hr := refreshedTo_refreshIfChanged t it
  rcases (turn_stepCurrent h.refresh (h.currentKey_refresh.trans hk) d).2 with
    ⟨hd, hc, hτ⟩ | hfirst
  · rw [moved, hτ]
    exact hcover ⟨hr.direction.symm.trans hd, hr.current.symm.trans hc⟩
  · exact Overlay.covers_of_isFirst hfirst

theorem moved_tree_of_straight (hs : it.Straight d) :
    (it.moved d t).m_treeIterator = (it.refreshIfChanged t).m_treeIterator := by
  have hr := refreshedTo_refreshIfChanged t it
  have hd : (it.refreshIfChanged t).m_direction = d := hr.direction.trans hs.1
  have hc : (it.refreshIfChanged t).m_current = some .dbIterator := hr.current.trans hs.2
  rw [moved, turn, if_pos hd, stepCurrent, hc]

end TransactionIterator

end LevelDB
end WebKit
