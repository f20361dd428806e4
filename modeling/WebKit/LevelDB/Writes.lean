import WebKit.LevelDB.MergedView

/-!
# Writes under an open iterator

Writes restructure the tree while iterators are open on the transaction.  An iterator keeps its
tree cursor through them: when a node has been added, the next read refreshes the tree cursor, but
a cursor that stands on a node stays on it.  A step is *straight* when the database cursor is the
current one and the direction stays; only then the tree cursor is not placed anew, and the nodes
between the current key and the tree cursor are skipped.

`shows_move_iff` says for every state of every run exactly when the next step moves to the next key
of the view as it is at that time.
-/

namespace WebKit
namespace LevelDB

open LevelDBTransaction TransactionIterator

variable {K V O : Type*} [Comparator K] [LinearOrder O] [Ranked K O]

/-! ## Runs with writes -/

/-- A transaction with an iterator open on it. -/
structure Session (K V : Type*) [Comparator K] where
  transaction : LevelDBTransaction K V
  iterator : TransactionIterator K

/-- The calls on a transaction and its iterator; `read` is a call of `key` or `value`. -/
inductive Action (K V : Type*) where
  | move (op : Op K)
  | put (key : K) (value : V)
  | remove (key : K)
  | read

/-- The iterators are told when a node has been added. -/
def Session.write (s : Session K V) (r : LevelDBTransaction K V × Bool) : Session K V :=
  ⟨r.1, if r.2 then s.iterator.treeChanged else s.iterator⟩

def Action.run [Inhabited V] (s : Session K V) : Action K V → Session K V
  | .move op => ⟨s.transaction, op.run s.transaction s.iterator⟩
  | .put key value => s.write (s.transaction.put key value)
  | .remove key => s.write (s.transaction.remove key)
  | .read => ⟨s.transaction, (s.iterator.key s.transaction).2⟩

variable {t : LevelDBTransaction K V} {it : TransactionIterator K} {d : Direction}

theorem hasKey_set {key : K} {value : V} (h : t.m_tree.HasKey k) :
    (t.set key value deleted).1.m_tree.HasKey k := by
  obtain ⟨node, hnode⟩ := h
  rw [SortedMap.HasKey]
  simp only [lookup_set]
  by_cases hr : rank key = rank k
  · refine ⟨⟨value, deleted⟩, ?_⟩
    rw [if_pos hr, SortedMap.find?_eq_lookup, hr, hnode]
    rfl
  · exact ⟨node, by rw [if_neg hr, hnode]⟩

theorem TransactionIterator.Coherent.treeChanged (h : Coherent t it) : Coherent t it.treeChanged :=
  ⟨⟨h.onKeys.tree, h.onKeys.db⟩, h.tree, h.db, h.none⟩

/-- Coherence only looks at the keys of the tree and at the database. -/
theorem TransactionIterator.Coherent.set (h : Coherent t it) (key : K) (value : V)
    (deleted : Bool) : Coherent (t.set key value deleted).1 it := by
  have hbase : ((t.set key value deleted).1.overlay it.m_direction).base =
      (t.overlay it.m_direction).base := by
    simp only [overlay, set_m_db]
  refine ⟨⟨fun k hk => hasKey_set (h.onKeys.tree k hk), fun k hk => ?_⟩, ?_, h.db, h.none⟩
  · rw [set_m_db]
    exact h.onKeys.db k hk
  · rw [hbase]
    exact h.tree

theorem coherent_write {s : Session K V} (h : Coherent s.transaction s.iterator) (key : K)
    (value : V) (deleted : Bool) :
    Coherent (s.write (s.transaction.set key value deleted)).transaction
      (s.write (s.transaction.set key value deleted)).iterator := by
  rw [Session.write]
  split
  · exact (h.set key value deleted).treeChanged
  · exact h.set key value deleted

theorem TransactionIterator.Coherent.move (h : Coherent t it) (d : Direction) :
    Coherent t (it.move d t) := by
  rw [TransactionIterator.move]
  split
  · next hv =>
    obtain ⟨k, hk⟩ := Option.isSome_iff_exists.mp (h.currentKey_isSome.trans hv)
    exact (ready_moved h hk d).coherent
  · exact h

theorem coherent_action [Inhabited V] (h : Coherent s.transaction s.iterator) (a : Action K V) :
    Coherent (a.run s).transaction (a.run s).iterator := by
  cases a with
  | move op =>
    cases op with
    | seek target => exact (ready_seek s.transaction s.iterator target).coherent
    | seekToLast => exact (ready_seekToLast s.transaction s.iterator).coherent
    | next => exact h.move .forward
    | prev => exact h.move .reverse
  | put key value => exact coherent_write h key value false
  | remove key => exact coherent_write h key default true
  | read => exact h.refresh

theorem coherent_foldl [Inhabited V] (t : LevelDBTransaction K V) (acts : List (Action K V)) :
    Coherent (acts.foldl Action.run ⟨t, create⟩).transaction
      (acts.foldl Action.run ⟨t, create⟩).iterator := by
  induction acts using List.reverseRecOn with
  | nil => exact coherent_create t
  | append_singleton acts a ih =>
    rw [List.foldl_append]
    exact coherent_action ih a

/-! ## What a straight step skips -/

/-- The places between the current key and the tree cursor.  At the end of the tree the cursor is
placed anew when a node has been added, but in reverse only from a node at or above the key. -/
def Skipped (t : LevelDBTransaction K V) (it : TransactionIterator K) (d : Direction) (k : K)
    (e : d.Rank O) : Prop :=
  d.ofRank (rank k) < e ∧
    match it.m_treeIterator with
    | some k' => e < d.ofRank (rank k')
    | none => it.m_treeChanged = true → d = .reverse ∧ t.m_tree.seek k = none

/-- A straight step skips no change of the database, except behind an entry of the database that
the transaction leaves as it is. -/
def NothingSkipped (t : LevelDBTransaction K V) (it : TransactionIterator K) (d : Direction)
    (k : K) : Prop :=
  it.Straight d → ∀ e : d.Rank O, Skipped t it d k e →
    t.view (d.toRank e) ≠ t.m_db.lookup (d.toRank e) →
    ∃ z : d.Rank O, d.ofRank (rank k) < z ∧ z < e ∧ (t.m_db.lookup (d.toRank z)).isSome ∧
      t.view (d.toRank z) = t.m_db.lookup (d.toRank z)

/-- A node is skipped when it lies in front of the refreshed tree cursor. -/
theorem skipped_iff (hk : it.currentKey = some k)
    (hs : it.Straight d) (he : e ∈ (t.overlay d).layer) (hke : d.ofRank (rank k) < e) :
    Skipped t it d k e ↔
      (e : WithTop (d.Rank O)) < position d (it.refreshIfChanged t).m_treeIterator := by
  obtain ⟨hd, hc⟩ := hs
  have hδ := (currentKey_of_db hc).symm.trans hk
  rw [Skipped, and_iff_right hke]
  cases hτ : it.m_treeIterator with
  | some k' =>
    rw [(refreshedTo_refreshIfChanged t it).tree k' hτ, position_some, WithTop.coe_lt_coe]
  | none =>
    rw [refreshIfChanged]
    cases hch : it.m_treeChanged with
    | false =>
      rw [if_neg (by simp), hτ]
      simp
    | true =>
      rw [refreshTreeIterator, hτ, hδ]
      simp only [hd]
      cases d with
      | forward =>
        have := (isFirst_seekBeyond t.m_tree k .forward).le e ⟨he, hke⟩
        simp [not_lt.mpr this]
      | reverse =>
        cases hseek : t.m_tree.seek k with
        | none => simp
        | some x =>
          have := (isFirst_prev_of_seek hseek).le e ⟨he, hke⟩
          simp [not_lt.mpr this]

theorem nothingSkipped_iff (hk : it.currentKey = some k) :
    NothingSkipped t it d k ↔ (it.Straight d → (t.overlay d).Covers {x | d.ofRank (rank k) < x}
      (position d (it.refreshIfChanged t).m_treeIterator)) := by
  refine forall_congr' fun hs => ⟨fun hn e he hke hlt => ?_, fun hcov e hskip he => ?_⟩
  · have hover := ((t.overlay d).changed_subset he).1
    obtain ⟨z, hkz, hze, hz, hzv⟩ := hn e ((skipped_iff hk hs hover hke).mpr hlt) he
    exact ⟨z, hz, not_not.mpr hzv, hkz, hze⟩
  · have hover := ((t.overlay d).changed_subset he).1
    obtain ⟨z, hz, hzc, hkz, hze⟩ := hcov e he hskip.1
      ((skipped_iff hk hs hover hskip.1).mp hskip)
    exact ⟨z, hkz, hze, hz, not_not.mp hzc⟩

/-- A step that skips a change does not show the next entry of the view. -/
theorem not_shows_of_skipped (h : Coherent t it) (hk : it.currentKey = some k)
    (hs : it.Straight d) (he : e ∈ (t.overlay d).changed) (hke : d.ofRank (rank k) < e)
    (hlt : (e : WithTop (d.Rank O)) < position d (it.refreshIfChanged t).m_treeIterator)
    (hno : ∀ z ∈ (t.overlay d).base, d.ofRank (rank k) < z → e ≤ z)
    (hno' : ∀ z ∈ (t.overlay d).view, d.ofRank (rank k) < z → e ≤ z) :
    ¬ Shows t (it.move d t) (t.commit.step d k) := by
  rintro ⟨hvalid, hentry⟩
  have hready := ready_moved h hk d
  have hset := settledTo_settle hready.direction hready.onKeys
  have hv : it.isValid = true := by rw [← h.currentKey_isSome, hk]; rfl
  rw [move_eq hv] at hvalid hentry
  rw [← moved_tree_of_straight hs] at hlt
  have hcoh := hready.coherent
  by_cases hbase : e ∈ (t.overlay d).base
  · -- the entry of the database is shown although it has been changed
    have hδ : position d (it.moved d t).m_dbIterator = e :=
      hready.base.unique (IsFirst.coe_iff.mpr ⟨⟨hbase, hke⟩, fun z hz => hno z hz.1 hz.2⟩)
    obtain ⟨hmin, hdb⟩ := hset.settled.min_eq_of_passed hδ hbase hlt
    rw [← hset.position_currentKey] at hmin
    obtain ⟨k', hk', hr⟩ := position_eq_coe_iff.mp hmin
    have hc : ((it.moved d t).settle t).m_current = some .dbIterator := by
      rcases cursor_of_currentKey hk' with ⟨hc, -⟩ | ⟨hc, -⟩
      · exact absurd (hset.tree hc).2 (not_le.mpr hdb)
      · exact hc
    have hδ' := (currentKey_of_db hc).symm.trans hk'
    obtain ⟨v, hv'⟩ := hset.onKeys.db k' hδ'
    have hread : ((it.moved d t).settle t).entry t = t.m_db.lookup (rank k') := by
      rw [hcoh.entry_eq, hk']
      simp [currentValue, hc, hδ', SortedMap.find?_eq_lookup, hv']
    rw [hread] at hentry
    -- the cursor over the committed database reads the view at its own key
    obtain ⟨a, ha⟩ : ∃ a, t.commit.step d k = some a := by
      refine Option.isSome_iff_exists.mp (hvalid.symm.trans ?_)
      rw [← hcoh.currentKey_isSome, hk']
      rfl
    rw [ha, Option.bind_some, SortedMap.find?_eq_lookup, lookup_commit, hv'] at hentry
    have hra : rank k' = rank a := rank_of_view hentry.symm
    rw [← hr, mem_changed_iff] at he
    exact he (by rw [hra, ← hentry, ← hra, hv'])
  · -- the live node is passed over
    have hlive : e ∈ (t.overlay d).view :=
      Or.inl (((t.overlay d).changed_subset he).2.resolve_right hbase)
    have hfirst : position d (t.commit.step d k) = e :=
      (t.commit.isFirst_step d k).unique (IsFirst.coe_iff.mpr
        ⟨⟨mem_ranks_commit.mpr hlive, hke⟩, fun z hz => hno' z (mem_ranks_commit.mp hz.1) hz.2⟩)
    obtain ⟨a, ha, hra⟩ := position_eq_coe_iff.mp hfirst
    obtain ⟨v, hva⟩ := SortedMap.hasKey_of_step ha
    have heδ : (e : WithTop (d.Rank O)) < position d (it.moved d t).m_dbIterator := by
      cases hc : position d (it.moved d t).m_dbIterator with
      | top => exact WithTop.coe_lt_top e
      | coe z =>
        obtain ⟨hz, hkz⟩ := hready.base.mem z hc
        exact WithTop.coe_lt_coe.mpr (lt_of_le_of_ne (hno z hz hkz) fun hce => hbase (hce ▸ hz))
    have hmin := hset.settled.lt_min_of_passed heδ hlt
    rw [← hset.position_currentKey] at hmin
    rw [ha, Option.bind_some, SortedMap.find?_eq_lookup, hva, hcoh.entry_eq] at hentry
    obtain ⟨k', hk', hval⟩ := Option.bind_eq_some_iff.mp hentry
    obtain ⟨v', -, hv'⟩ := Option.map_eq_some_iff.mp hval
    obtain rfl : k' = a := congrArg Prod.fst hv'
    rw [hk', position_some, hra] at hmin
    exact absurd hmin (lt_irrefl _)

/-- **No update is lost exactly when nothing is skipped.**  In every state of every run of moves,
reads and writes, the next step in a direction shows the next entry of the view as it is then, if
and only if that step skips no change. -/
theorem shows_move_iff [Inhabited V] (t : LevelDBTransaction K V) (acts : List (Action K V))
    (s : Session K V) (hs : s = acts.foldl Action.run ⟨t, create⟩) (k : K)
    (hk : (s.iterator.key s.transaction).1 = some k) (d : Direction) :
    Shows s.transaction (s.iterator.move d s.transaction) (s.transaction.commit.step d k) ↔
      NothingSkipped s.transaction s.iterator d k := by
  have h := coherent_foldl t acts
  rw [← hs] at h
  replace hk : s.iterator.currentKey = some k := h.currentKey_refresh.symm.trans hk
  rw [nothingSkipped_iff hk]
  have hv : s.iterator.isValid = true := by rw [← h.currentKey_isSome, hk]; rfl
  refine ⟨fun hshows hst => ?_, fun hcov => ?_⟩
  · by_contra hnot
    rw [Overlay.Covers] at hnot
    push Not at hnot
    obtain ⟨e₀, he₀, hke₀, hlt₀, hz₀⟩ := hnot
    -- the first change that is skipped
    obtain ⟨e, ⟨he, hke, hle⟩, hmin⟩ := Set.exists_min_image
      {e | e ∈ (s.transaction.overlay d).changed ∧ d.ofRank (rank k) < e ∧ e ≤ e₀} id
      ((ranks_finite s.transaction.m_tree d).subset fun e he =>
        ((s.transaction.overlay d).changed_subset he.1).1) ⟨e₀, he₀, hke₀, le_rfl⟩
    have hbefore : ∀ z ∈ (s.transaction.overlay d).base, d.ofRank (rank k) < z → e ≤ z := by
      intro z hz hkz
      by_contra! hlt
      by_cases hc : z ∈ (s.transaction.overlay d).changed
      · exact absurd (hmin z ⟨hc, hkz, (hlt.trans_le hle).le⟩) (not_le.mpr hlt)
      · exact absurd (hlt.trans_le hle) (not_lt.mpr (hz₀ z hz hc hkz))
    refine not_shows_of_skipped h hk hst he hke
      ((WithTop.coe_le_coe.mpr hle).trans_lt hlt₀) hbefore ?_ hshows
    rintro z (hlive | ⟨hz, -⟩) hkz
    · by_contra! hlt
      by_cases hc : z ∈ (s.transaction.overlay d).changed
      · exact absurd (hmin z ⟨hc, hkz, (hlt.trans_le hle).le⟩) (not_le.mpr hlt)
      · have hz := ((s.transaction.overlay d).live_iff_base z
          ((s.transaction.overlay d).live_subset hlive) hc).mp hlive
        exact absurd hlt (not_lt.mpr (hbefore z hz hkz))
    · exact hbefore z hz hkz
  · rw [move_eq hv]
    exact (shows_of_ready (ready_moved h hk d) (covers_moved h hk d hcov)
      (s.transaction.commit.isFirst_step d k)).2

/-- The database holds 1, the iterator stands on it, and 3 is put. -/
def putBehind (writes : List (Action ℤ ℕ)) : Session ℤ ℕ :=
  (writes ++ [Action.move (.seek 1), Action.put 3 30]).foldl Action.run
    ⟨LevelDBTransaction.create ⟨[(1, 10)], by decide⟩, create⟩

/-- With no other node, the tree cursor is placed anew and the step shows 3. -/
theorem shows_move_putBehind :
    Shows (putBehind []).transaction ((putBehind []).iterator.move .forward (putBehind []).transaction)
      ((putBehind []).transaction.commit.step .forward 1) := by
  refine (shows_move_iff _ _ (putBehind []) rfl 1 (by decide) .forward).mpr fun _ e he _ => ?_
  exact absurd (he.2 (by decide)).1 (by decide)

/-- With a node at 5 under the tree cursor, the step skips 3. -/
theorem not_shows_move_putBehind :
    ((putBehind [.put 5 50]).iterator.move .forward (putBehind [.put 5 50]).transaction).entry
        (putBehind [.put 5 50]).transaction = some (5, 50) ∧
      (putBehind [.put 5 50]).transaction.commit.step .forward 1 = some 3 ∧
      ¬ ∀ (t : LevelDBTransaction ℤ ℕ) (acts : List (Action ℤ ℕ)) (s : Session ℤ ℕ),
        s = acts.foldl Action.run ⟨t, create⟩ → ∀ (k : ℤ) (d : Direction),
        (s.iterator.key s.transaction).1 = some k → Shows s.transaction
          (s.iterator.move d s.transaction) (s.transaction.commit.step d k) := by
  have hentry : ((putBehind [.put 5 50]).iterator.move .forward
      (putBehind [.put 5 50]).transaction).entry (putBehind [.put 5 50]).transaction =
      some (5, 50) := by decide
  have hstep : (putBehind [.put 5 50]).transaction.commit.step .forward 1 = some 3 := by decide
  refine ⟨hentry, hstep, fun h => ?_⟩
  have := (h _ _ (putBehind [.put 5 50]) rfl 1 .forward (by decide)).2
  exact absurd this (by decide)

end LevelDB
end WebKit
