import WebKit.LevelDB.Writes

/-!
# Deleting under an open iterator

`deleteRange` walks forward over a transaction and removes every key it stands on.  Its own
removals change the tree under the iterator, and the iterator may stand on keys that are deleted
already; but removing a key twice does no harm, and no live node is ever added, so the walk passes
no entry of the view.  What such a walk keeps is `Sweeping`.
-/

namespace WebKit

open List Direction
namespace LevelDB

open LevelDBTransaction TransactionIterator

variable {K V O : Type*} [Comparator K] [LinearOrder O] [Ranked K O]

/-- The loop of `deleteRange`; `it->key()` is read before the removal. -/
def deleteRangeLoop [Inhabited V] (stop : K) : ℕ → Session K V → LevelDBTransaction K V
  | 0, s => s.transaction
  | n + 1, s =>
    match (s.iterator.key s.transaction).1 with
    | none => s.transaction
    | some k =>
      if compareKeys k stop < 0 then
        deleteRangeLoop stop n
          ([Action.read, Action.remove k, Action.move .next].foldl Action.run s)
      else s.transaction

/-- The walk never meets a key twice, so the loop ends. -/
def deleteRange [Inhabited V] (t : LevelDBTransaction K V) (start stop : K) :
    LevelDBTransaction K V :=
  deleteRangeLoop stop (t.m_db.entries.length + t.m_tree.entries.length + 1)
    ⟨t, TransactionIterator.create.seek t start⟩

variable {t : LevelDBTransaction K V} {it : TransactionIterator K}

/-! ## Walks that pass no entry -/

/-- A forward walk: beside a current database cursor, every live node ahead lies at or behind the
tree cursor as the next read will place it. -/
structure Sweeping (t : LevelDBTransaction K V) (it : TransactionIterator K) : Prop where
  coherent : Coherent t it
  direction : it.m_current ≠ none → it.m_direction = .forward
  live : it.m_current = some .dbIterator → ∀ k, it.m_dbIterator = some k →
    ∀ y ∈ (t.overlay .forward).live, forward.ofRank (rank k) < y →
      position .forward (it.refreshIfChanged t).m_treeIterator ≤ y

theorem refreshIfChanged_idem (t : LevelDBTransaction K V) (it : TransactionIterator K) :
    (it.refreshIfChanged t).refreshIfChanged t = it.refreshIfChanged t := by
  cases hch : it.m_treeChanged with
  | false => rw [refreshIfChanged_of_unchanged hch, refreshIfChanged_of_unchanged hch]
  | true =>
    cases hτ : it.m_treeIterator with
    | some k =>
      have h : it.refreshIfChanged t = it := by
        rw [refreshIfChanged, if_pos hch, refreshTreeIterator, hτ]
      rw [h, h]
    | none =>
      refine refreshIfChanged_of_unchanged ?_
      rw [refreshIfChanged, if_pos hch, refreshTreeIterator, hτ]
      cases it.m_dbIterator <;> rfl

/-- A refresh places the tree cursor on the next node, or leaves it. -/
theorem position_refresh_le (hd : it.m_direction = .forward) {k : K}
    (hk : it.m_dbIterator = some k) {y : forward.Rank O}
    (hy : y ∈ (t.overlay .forward).layer) (hky : forward.ofRank (rank k) < y)
    (hle : position .forward it.m_treeIterator ≤ y ∨ it.m_treeChanged = true ∧
      it.m_treeIterator = none) :
    position .forward (it.refreshIfChanged t).m_treeIterator ≤ y := by
  cases hτ : it.m_treeIterator with
  | some k' =>
    rw [(refreshedTo_refreshIfChanged t it).tree k' hτ, ← hτ]
    rcases hle with hle | hle
    · exact hle
    · exact absurd (hτ.symm.trans hle.2) (by simp)
  | none =>
    have hch : it.m_treeChanged = true := by
      rcases hle with hle | hle
      · rw [hτ] at hle
        exact absurd hle (by simp)
      · exact hle.1
    rw [refreshIfChanged, if_pos hch, refreshTreeIterator, hτ, hk, hd]
    exact (isFirst_seekBeyond t.m_tree k .forward).le y ⟨hy, hky⟩

/-- What the iterator reads is the entry of the view, or one of the database that is deleted. -/
def Shown (t : LevelDBTransaction K V) (it : TransactionIterator K) : Prop :=
  ∀ k, it.currentKey = some k → ∃ v, (it.value t).1 = some v ∧
    (t.view (rank k) = some (k, v) ∨ t.view (rank k) = none ∧ t.m_db.lookup (rank k) = some (k, v))

/-- With every live node ahead of the tree cursor, none is hidden by the database cursor. -/
theorem shown_of_ready (h : Ready t d U it)
    (hlive : ∀ y ∈ (t.overlay d).live, y ∈ U → position d it.m_treeIterator ≤ y) : Shown t (it.settle t) := by
  intro k hk
  have hs := settledTo_settle h.direction h.onKeys
  rw [value, h.coherent.currentValue_refresh]
  cases hc : (it.settle t).m_current with
  | none => exact absurd ((currentKey_of_none hc).symm.trans hk) (by simp)
  | some c =>
    cases c with
    | treeIterator =>
      rw [currentKey_of_tree hc] at hk
      obtain ⟨node, hnode⟩ := hs.onKeys.tree k hk
      have hmem := (hs.settled.live.mem (d.ofRank (rank k)) (by rw [hk]; rfl)).1
      rw [mem_live_iff (hs.onKeys.tree k hk).isSome, isDeleted, SortedMap.find?_eq_lookup,
        hnode] at hmem
      replace hmem : node.deleted = false := hmem
      refine ⟨node.value, ?_, Or.inl ?_⟩
      · simp [currentValue, hc, hk, SortedMap.find?_eq_lookup, hnode]
      · simp [view, nodeEntry, hnode, hmem]
    | dbIterator =>
      rw [currentKey_of_db hc] at hk
      obtain ⟨v, hv⟩ := hs.onKeys.db k hk
      have hpos : position d (it.settle t).m_dbIterator =
          (d.ofRank (rank k) : d.Rank O) := by rw [hk]; rfl
      refine ⟨v, by simp [currentValue, hc, hk, SortedMap.find?_eq_lookup, hv], ?_⟩
      cases hnode : t.m_tree.lookup (rank k) with
      | none => exact Or.inl (by rw [view, hnode]; exact hv)
      | some node =>
        cases hdel : node.2.deleted with
        | true => exact Or.inr ⟨by rw [view, hnode]; exact if_pos hdel, hv⟩
        | false =>
          -- a live node at the key would have been met by the tree cursor
          have hmem : d.ofRank (rank k) ∈ (t.overlay d).live :=
            ⟨node, by rw [toRank_ofRank]; exact hnode, hdel⟩
          have hkU : d.ofRank (rank k) ∈ U :=
            Overlay.Settled.mem_of_le h.upper (fun x hx => (h.base.mem x hx).2)
              (hs.settled.base.mem _ hpos).2.1
          have hle := hs.settled.live.le _ ⟨hmem, hlive _ hmem hkU⟩
          exact absurd (hs.db hc).2 (not_lt.mpr (hpos ▸ hle))

/-- A step goes on from the current key, and passes no entry of the view. -/
theorem passes_of_ready (h : Ready t d {x | o < x} it)
    (hlive : ∀ y ∈ (t.overlay d).live, o < y → position d it.m_treeIterator ≤ y) :
    (o : WithTop (d.Rank O)) < position d (it.settle t).currentKey ∧
      ∀ y ∈ (t.overlay d).view, o < y → position d (it.settle t).currentKey ≤ y := by
  have hs := settledTo_settle h.direction h.onKeys
  rw [hs.position_currentKey]
  refine ⟨hs.settled.lt_min_of_passed ?_ ?_, fun y hy hky => ?_⟩
  · cases hc : position d it.m_dbIterator with
    | top => exact WithTop.coe_lt_top _
    | coe z => exact WithTop.coe_lt_coe.mpr (h.base.mem z hc).2
  · cases hc : position d it.m_treeIterator with
    | top => exact WithTop.coe_lt_top _
    | coe z => exact WithTop.coe_lt_coe.mpr (h.tree z hc)
  · exact hs.settled.min_le_of_mem_view hy (fun hl => hlive y hl hky)
      fun hb => h.base.le y ⟨hb, hky⟩

namespace Sweeping

theorem of_ready (h : Ready t .forward U it) (hlive : ∀ y ∈ (t.overlay .forward).live, y ∈ U →
      position .forward it.m_treeIterator ≤ y) : Sweeping t (it.settle t) := by
  have hs := settledTo_settle h.direction h.onKeys
  refine ⟨h.coherent, fun _ => hs.direction, fun hc k hk y hy hky => ?_⟩
  have hlt := (hs.db hc).2
  rw [hk] at hlt
  have hkU : forward.ofRank (rank k) ∈ U :=
    Overlay.Settled.mem_of_le h.upper (fun x hx => (h.base.mem x hx).2)
      (hs.settled.base.mem _ (by rw [hk]; rfl)).2.1
  have hfirst := hs.settled.live_after hlt fun z hz hkz => hlive z hz (h.upper hkz.le hkU)
  exact position_refresh_le hs.direction hk ((t.overlay .forward).live_subset hy) hky
    (Or.inl (hfirst.le y ⟨hy, hky⟩))

theorem seek (t : LevelDBTransaction K V) (it : TransactionIterator K) (target : K) :
    Sweeping t (it.seek t target) :=
  of_ready (ready_seek t it target) fun y hy hU =>
    (t.m_tree.isFirst_seek target).le y ⟨(t.overlay .forward).live_subset hy, hU⟩

theorem shown_seek (t : LevelDBTransaction K V) (it : TransactionIterator K) (target : K) :
    Shown t (it.seek t target) :=
  shown_of_ready (ready_seek t it target) fun y hy hU =>
    (t.m_tree.isFirst_seek target).le y ⟨(t.overlay .forward).live_subset hy, hU⟩

variable (h : Sweeping t it)

include h

theorem refresh : Sweeping t (it.refreshIfChanged t) := by
  have hr := refreshedTo_refreshIfChanged t it
  refine ⟨h.coherent.refresh, fun hc => hr.direction.trans (h.direction (hr.current ▸ hc)),
    fun hc k hk => ?_⟩
  rw [refreshIfChanged_idem]
  exact h.live (hr.current.symm.trans hc) k (hr.db.symm.trans hk)

omit h in
/-- A removal adds no live node. -/
theorem remove [Inhabited V] {s : Session K V} (h : Sweeping s.transaction s.iterator) (key : K) :
    Sweeping (s.write (s.transaction.remove key)).transaction
      (s.write (s.transaction.remove key)).iterator := by
  have hcoh := coherent_write h.coherent key default true
  have hsub : ∀ y ∈ ((s.transaction.remove key).1.overlay .forward).live,
      y ∈ (s.transaction.overlay .forward).live := by
    rintro y ⟨node, hnode, hdel⟩
    rw [LevelDBTransaction.remove, lookup_set] at hnode
    split at hnode
    · rw [← Option.some_inj.mp hnode] at hdel
      exact absurd hdel (by simp)
    · exact ⟨node, hnode, hdel⟩
  refine ⟨hcoh, ?_, ?_⟩
  · rw [Session.write]
    split <;> exact h.direction
  · intro hc k hk y hy hky
    have hover := ((s.transaction.remove key).1.overlay .forward).live_subset hy
    have hc' : s.iterator.m_current = some .dbIterator := by
      rw [Session.write] at hc
      split at hc <;> exact hc
    have hk' : s.iterator.m_dbIterator = some k := by
      rw [Session.write] at hk
      split at hk <;> exact hk
    have hle := h.live hc' k hk' y (hsub y hy) hky
    have hd := h.direction (by rw [hc']; simp)
    rw [Session.write]
    split
    · -- a node has been added
      next hnew =>
      refine @position_refresh_le _ _ _ _ _ _ _ s.iterator.treeChanged hd _ hk' _ hover hky ?_
      cases hτ : s.iterator.m_treeIterator with
      | some k' =>
        rw [(refreshedTo_refreshIfChanged _ _).tree k' hτ, ← hτ] at hle
        exact Or.inl hle
      | none => exact Or.inr ⟨rfl, hτ⟩
    · refine position_refresh_le hd hk' hover hky ?_
      cases hτ : s.iterator.m_treeIterator with
      | some k' =>
        rw [(refreshedTo_refreshIfChanged _ _).tree k' hτ] at hle
        exact Or.inl hle
      | none =>
        cases hch : s.iterator.m_treeChanged with
        | true => exact Or.inr ⟨rfl, rfl⟩
        | false =>
          rw [refreshIfChanged_of_unchanged hch, hτ] at hle
          exact absurd hle (by simp)

variable {k : K}

/-- The live nodes ahead lie at or behind the tree cursor of the next step. -/
theorem live_moved (hk : it.currentKey = some k) :
    ∀ y ∈ (t.overlay .forward).live, forward.ofRank (rank k) < y →
      position .forward (it.moved .forward t).m_treeIterator ≤ y := by
  intro y hy hky
  rcases (turn_stepCurrent h.coherent.refresh (h.coherent.currentKey_refresh.trans hk) .forward).2
    with ⟨-, hc, hτ⟩ | hfirst
  · rw [(refreshedTo_refreshIfChanged t it).current] at hc
    rw [moved, hτ]
    exact h.live hc k ((currentKey_of_db hc).symm.trans hk) y hy hky
  · exact hfirst.le y ⟨(t.overlay .forward).live_subset hy, hky⟩

theorem next : Sweeping t (it.next t) := by
  rw [TransactionIterator.next, TransactionIterator.move]
  split
  · next hv =>
    obtain ⟨k, hk⟩ := Option.isSome_iff_exists.mp (h.coherent.currentKey_isSome.trans hv)
    exact of_ready (ready_moved h.coherent hk .forward) (h.live_moved hk)
  · exact h

theorem shown_next (hk : it.currentKey = some k) : Shown t (it.next t) := by
  have hv : it.isValid = true := by rw [← h.coherent.currentKey_isSome, hk]; rfl
  rw [TransactionIterator.next, move_eq hv]
  exact shown_of_ready (ready_moved h.coherent hk .forward) (h.live_moved hk)

/-- The next step goes forward and passes no entry of the view. -/
theorem next_spec (hk : it.currentKey = some k) :
    ((forward.ofRank (rank k) : forward.Rank O) :
        WithTop (forward.Rank O)) < position .forward (it.next t).currentKey ∧
      ∀ y ∈ (t.overlay .forward).view, forward.ofRank (rank k) < y →
        position .forward (it.next t).currentKey ≤ y := by
  have hv : it.isValid = true := by rw [← h.coherent.currentKey_isSome, hk]; rfl
  rw [TransactionIterator.next, move_eq hv]
  exact passes_of_ready (ready_moved h.coherent hk .forward) (h.live_moved hk)

end Sweeping

/-! ## Deleting a range -/

section Range

variable [Inhabited V]
variable {k : K} {s : Session K V}

theorem countP_insertEntry {α : Type*} (x : α) {p : K × α → Bool} {l : List (K × α)}
    (hp : ∀ y, p (k, y) = false) (hl : ∀ e ∈ l, compareKeys k e.1 = 0 → p e = false) :
    (SortedMap.insertEntry k x l).countP p = l.countP p := by
  induction l with
  | nil => simp [SortedMap.insertEntry, hp]
  | cons a l ih =>
    rw [SortedMap.insertEntry]
    split
    · rw [countP_cons_of_neg (by simp [hp])]
    · split
      · next heq =>
        rw [countP_cons_of_neg (by simp [hp]),
          countP_cons_of_neg (by simp [hl a (mem_cons_self ..) heq])]
      · rw [countP_cons, countP_cons, ih fun e he => hl e (mem_cons_of_mem a he)]

omit [Inhabited V] in
/-- A write at a key does not change how many nodes lie beyond it. -/
theorem remaining_set {d : Direction} {key : K} (value : V) (deleted : Bool)
    {p : WithTop (d.Rank O)} (h : (d.ofRank (rank key) : d.Rank O) < p) :
    remaining (t.set key value deleted).1.m_tree d p = remaining t.m_tree d p := by
  have hins : ∀ k : K, (rank k : O) = rank key → ∀ x,
      remaining (t.m_tree.insert k x) d p = remaining t.m_tree d p := fun k hr x => by
    refine countP_insertEntry x (fun _ => ?_) fun e _ he => ?_
    · rw [decide_eq_false_iff_not, hr]
      exact not_le.mpr h
    · have hke : rank k = rank e.1 := compare_eq_zero_iff.mp he
      rw [decide_eq_false_iff_not, ← hke, hr]
      exact not_le.mpr h
  rw [LevelDBTransaction.set]
  split
  · exact hins key rfl _
  · next node hnode =>
    exact hins node.1 (SortedMap.rank_of_lookup
      ((t.m_tree.find?_eq_lookup key).symm.trans hnode)) _

/-- The work left for a walk. -/
def ahead (s : Session K V) : ℕ :=
  remaining s.transaction.m_db .forward (position .forward s.iterator.currentKey) +
    remaining s.transaction.m_tree .forward (position .forward s.iterator.currentKey)

/-- One turn of a walk that removes the current key. -/
theorem sweeping_removeNext (h : Sweeping s.transaction s.iterator)
    (hk : s.iterator.currentKey = some k)
    (hs' : s' = [Action.read, Action.remove k, Action.move .next].foldl Action.run s) :
    Sweeping s'.transaction s'.iterator ∧ Shown s'.transaction s'.iterator ∧
      s'.transaction = (s.transaction.remove k).1 ∧ ahead s' < ahead s ∧
      ((forward.ofRank (rank k) : forward.Rank O) :
        WithTop (forward.Rank O)) < position .forward s'.iterator.currentKey ∧
      ∀ y ∈ (s'.transaction.overlay .forward).view, forward.ofRank (rank k) < y →
        position .forward s'.iterator.currentKey ≤ y := by
  let s₁ : Session K V := ⟨s.transaction, s.iterator.refreshIfChanged s.transaction⟩
  let s₂ : Session K V := s₁.write (s.transaction.remove k)
  have h₁ : Sweeping s₁.transaction s₁.iterator := h.refresh
  have h₂ : Sweeping s₂.transaction s₂.iterator := h₁.remove k
  have hk₁ : s₁.iterator.currentKey = some k := h.coherent.currentKey_refresh.trans hk
  have hk₂ : s₂.iterator.currentKey = some k := by
    change (if (s.transaction.remove k).2 then s₁.iterator.treeChanged
      else s₁.iterator).currentKey = some k
    split <;> exact hk₁
  obtain rfl : s' = ⟨s₂.transaction, s₂.iterator.next s₂.transaction⟩ := hs'
  obtain ⟨hlt, hle⟩ := h₂.next_spec hk₂
  refine ⟨h₂.next, h₂.shown_next hk₂, rfl, ?_, hlt, hle⟩
  have hdb : s₂.transaction.m_db = s.transaction.m_db := set_m_db ..
  have htree := remaining_set (t := s.transaction) default true hlt
  have hpos : position .forward s.iterator.currentKey = position .forward (some k) := by rw [hk]
  change remaining s₂.transaction.m_db .forward
      (position .forward (s₂.iterator.next s₂.transaction).currentKey) +
    remaining (s.transaction.set k default true).1.m_tree .forward
      (position .forward (s₂.iterator.next s₂.transaction).currentKey) < _
  rw [hdb, ahead, hpos]
  have hdb' := remaining_mono (m := s.transaction.m_db) hlt.le
  have htree' := remaining_mono (m := s.transaction.m_tree) hlt.le
  rcases cursor_of_currentKey hk with ⟨-, hτ⟩ | ⟨-, hδ⟩
  · have := remaining_lt (h.coherent.onKeys.tree k hτ).isSome hlt
    rw [position_some] at this ⊢
    omega
  · have := remaining_lt (h.coherent.onKeys.db k hδ).isSome hlt
    rw [position_some] at this ⊢
    omega

/-- Removing the current key and everything wanted from the next one on removes everything wanted
from the current key on. -/
theorem ite_view_remove [DecidablePred P] (hk : P (rank k))
    (hlt : ((forward.ofRank (rank k) : forward.Rank O) : WithTop (forward.Rank O)) < p)
    (hle : ∀ y ∈ ((t.remove k).1.overlay .forward).view, forward.ofRank (rank k) < y → p ≤ y)
    (o : O) :
    (if p ≤ (forward.ofRank o : forward.Rank O) ∧ P o then none
      else (t.remove k).1.view o) = if rank k ≤ o ∧ P o then none else t.view o := by
  rw [view_remove]
  rcases lt_trichotomy (rank k) o with hko | rfl | hok
  · -- an entry beyond `k` that the walk has not reached is none of the view
    have hnone : ¬ p ≤ (forward.ofRank o : forward.Rank O) → t.view o = none := fun hnot => by
      have hmem := mt (fun hm => hle (forward.ofRank o) hm hko) hnot
      rw [mem_view_iff, Option.not_isSome_iff_eq_none] at hmem
      refine Eq.trans ?_ hmem
      exact ((t.view_remove k o).trans (if_neg hko.ne)).symm
    rw [if_neg hko.ne]
    split
    · next hp => rw [if_pos ⟨hko.le, hp.2⟩]
    · next hp =>
      split
      · next hk' => exact hnone fun hc => hp ⟨hc, hk'.2⟩
      · rfl
  · rw [if_pos rfl, ite_self, if_pos ⟨le_rfl, hk⟩]
  · rw [if_neg hok.ne', if_neg, if_neg fun hc => absurd hc.1 (not_le.mpr hok)]
    rintro ⟨hp, -⟩
    exact absurd (WithTop.coe_lt_coe.mp (hlt.trans_le hp)) (not_lt.mpr hok.le)

theorem position_some_le_iff :
    position .forward (some k) ≤ ((forward.ofRank o : forward.Rank O) :
      WithTop (forward.Rank O)) ↔ rank k ≤ o :=
  WithTop.coe_le_coe

/-- The loop removes what lies from the cursor on and before the stop key. -/
theorem view_deleteRangeLoop (stop : K) (n : ℕ) (h : Sweeping s.transaction s.iterator)
    (hn : ahead s < n) (o : O) :
    (deleteRangeLoop stop n s).view o =
      if position .forward s.iterator.currentKey ≤
          (forward.ofRank o : forward.Rank O) ∧ o < rank stop then none
      else s.transaction.view o := by
  induction n generalizing s with
  | zero => exact absurd hn (Nat.not_lt_zero _)
  | succ n ih =>
    have hkey : (s.iterator.key s.transaction).1 = s.iterator.currentKey :=
      h.coherent.currentKey_refresh
    rw [deleteRangeLoop, hkey]
    cases hk : s.iterator.currentKey with
    | none => rw [if_neg (by simp [position])]
    | some k =>
      simp only [position_some_le_iff]
      split
      · next hcmp =>
        have hstop : rank k < rank stop := compare_neg_iff.mp hcmp
        obtain ⟨hs', -, ht', hn', hlt, hle⟩ := sweeping_removeNext h hk rfl
        rw [ih hs' (by omega)]
        exact ite_view_remove (P := fun o => o < rank stop) hstop hlt hle o
      · next hcmp =>
        have hstop : rank stop ≤ rank k := not_lt.mp (compare_neg_iff.not.mp hcmp)
        rw [if_neg]
        rintro ⟨hko, ho⟩
        exact absurd (hstop.trans hko) (not_le.mpr ho)

/-- `deleteRange` removes the keys of the range, whatever their state, and no others. -/
theorem view_deleteRange (t : LevelDBTransaction K V) (start stop : K) (o : O) :
    (deleteRange t start stop).view o =
      if rank start ≤ o ∧ o < rank stop then none else t.view o := by
  have hfirst := TransactionIterator.isFirst_seek_currentKey t create start
  rw [deleteRange, view_deleteRangeLoop stop _ (Sweeping.seek t create start)]
  · split
    · next h =>
      refine (if_pos ⟨?_, h.2⟩).symm
      cases hp : position .forward (create.seek t start).currentKey with
      | top => exact absurd h.1 (by rw [hp]; simp)
      | coe x => exact (hfirst.mem x hp).2.trans (WithTop.coe_le_coe.mp (hp ▸ h.1))
    · next h =>
      split
      · next h' =>
        -- an entry of the range would be one of the walk
        by_contra hsome
        refine h ⟨hfirst.le (forward.ofRank o) ⟨?_, h'.1⟩, h'.2⟩
        rw [mem_view_iff, Option.isSome_iff_ne_none]
        exact hsome
      · rfl
  · refine Nat.lt_succ_of_le (Nat.add_le_add ?_ ?_) <;> exact countP_le_length

/-- A loop that only removes keys. -/
theorem deleteRangeLoop_induction {P : LevelDBTransaction K V → Prop}
    (hremove : ∀ t k, P t → P (t.remove k).1) (stop : K) (n : ℕ) (h : P s.transaction) :
    P (deleteRangeLoop stop n s) := by
  induction n generalizing s with
  | zero => exact h
  | succ n ih =>
    rw [deleteRangeLoop]
    split
    · exact h
    · next k _ =>
      split
      · exact ih (hremove s.transaction k h)
      · exact h

theorem stored_deleteRange {start : K} (h : (deleteRange t start stop).Stored k v) : t.Stored k v :=
  deleteRangeLoop_induction (P := fun t' => t'.Stored k v → t.Stored k v)
    (fun _ _ ih h' => ih (stored_remove h')) stop _ id h

theorem get_deleteRange (t : LevelDBTransaction K V) (start stop k : K) :
    (deleteRange t start stop).get k =
      if rank start ≤ rank k ∧ rank k < rank stop then none else t.get k := by
  rw [get_eq_view, view_deleteRange, get_eq_view]
  split <;> rfl

end Range

end LevelDB
end WebKit
