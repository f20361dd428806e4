import WebKit.LevelDB.DeleteRange

/-!
# Reading a transaction in one direction

Without writes, an iterator that keeps moving passes no entry of the view, but may stand on keys of
the database that the transaction has deleted.  A caller that asks the transaction for each key and
moves on from those it does not have meets exactly the entries of the view.

A caller that does not ask can rely on a move that turns and on a move from a node of the tree.  On a
key of the database it has no such promise: `Resurfaces` says when the step after a seek shows a
deleted key.
-/

namespace WebKit

open Direction
namespace LevelDB

open LevelDBTransaction TransactionIterator

variable {K V O : Type*} [Comparator K] [LinearOrder O] [Ranked K O]
variable {t : LevelDBTransaction K V} {it : TransactionIterator K} {d : Direction}

/-- No walk meets more keys. -/
def LevelDBTransaction.keyCount (t : LevelDBTransaction K V) : ℕ :=
  t.m_db.entries.length + t.m_tree.entries.length

/-- The keys that lie at or beyond the iterator. -/
def unread (d : Direction) (t : LevelDBTransaction K V) (it : TransactionIterator K) : ℕ :=
  remaining t.m_db d (position d it.currentKey) + remaining t.m_tree d (position d it.currentKey)

theorem unread_le_keyCount (d : Direction) (t : LevelDBTransaction K V)
    (it : TransactionIterator K) : unread d t it ≤ t.keyCount :=
  Nat.add_le_add List.countP_le_length List.countP_le_length

theorem unread_lt_of_position_lt (h : Coherent t it) (hk : it.currentKey = some k)
    (hlt : ((d.ofRank (rank k) : d.Rank O) : WithTop (d.Rank O)) < position d it'.currentKey) :
    unread d t it' < unread d t it := by
  have hdb := remaining_mono (m := t.m_db) hlt.le
  have htree := remaining_mono (m := t.m_tree) hlt.le
  rw [unread, unread, hk, position_some]
  rcases cursor_of_currentKey hk with ⟨-, hτ⟩ | ⟨-, hδ⟩
  · have := remaining_lt (h.onKeys.tree k hτ).isSome hlt
    rw [position_some] at this
    omega
  · have := remaining_lt (h.onKeys.db k hδ).isSome hlt
    rw [position_some] at this
    omega

/-! ## One move -/

namespace Quiet

variable {k : K}

theorem isValid_of_currentKey (h : Quiet t it) (hk : it.currentKey = some k) :
    it.isValid = true := by
  rw [← h.coherent.currentKey_isSome, hk]
  rfl

theorem key_eq (h : Quiet t it) : (it.key t).1 = it.currentKey := h.coherent.currentKey_refresh

section

variable (h : Quiet t it) (hk : it.currentKey = some k)
include h hk

theorem passes_move (d : Direction) :
    ((d.ofRank (rank k) : d.Rank O) : WithTop (d.Rank O)) < position d (it.move d t).currentKey ∧
      ∀ y ∈ (t.overlay d).view, d.ofRank (rank k) < y →
        position d (it.move d t).currentKey ≤ y := by
  rw [move_eq (h.isValid_of_currentKey hk)]
  exact passes_of_ready (ready_moved h.coherent hk d) (h.live_moved hk d)

theorem unread_move_lt (d : Direction) : unread d t (it.move d t) < unread d t it :=
  unread_lt_of_position_lt h.coherent hk (h.passes_move hk d).1

theorem shown_move (d : Direction) : Shown t (it.move d t) := by
  rw [move_eq (h.isValid_of_currentKey hk)]
  exact shown_of_ready (ready_moved h.coherent hk d) (h.live_moved hk d)

/-- A move that turns, or that starts from a node, leads to the next entry of the view. -/
theorem isFirst_move (hs : ¬ it.Straight d) :
    IsFirst {x | x ∈ (t.overlay d).view ∧ d.ofRank (rank k) < x}
      (position d (it.move d t).currentKey) := by
  rw [move_eq (h.isValid_of_currentKey hk)]
  exact (ready_moved h.coherent hk d).isFirst (covers_moved h.coherent hk d fun hc => absurd hc hs)

/-- On an entry of the view the move has found the next one. -/
theorem isFirst_move_of_mem {x : d.Rank O}
    (hx : position d (it.move d t).currentKey = x) (hmem : x ∈ (t.overlay d).view) :
    IsFirst {x | x ∈ (t.overlay d).view ∧ d.ofRank (rank k) < x} (x : WithTop (d.Rank O)) := by
  obtain ⟨hlt, hle⟩ := h.passes_move hk d
  rw [hx] at hlt hle
  exact IsFirst.coe_iff.mpr ⟨⟨hmem, WithTop.coe_lt_coe.mp hlt⟩,
    fun y hy => WithTop.coe_le_coe.mp (hle y hy.1 hy.2)⟩

end

end Quiet

/-- Beyond a key that is no entry of the view lie the same entries as before it. -/
theorem isFirst_of_passed (hle : ∀ y ∈ (t.overlay d).view, a < y → b ≤ y) (hab : a < b)
    (hb : b ∉ (t.overlay d).view) (hp : IsFirst {x | x ∈ (t.overlay d).view ∧ a < x} p) :
    IsFirst {x | x ∈ (t.overlay d).view ∧ b < x} p := by
  refine hp.congr fun x => and_congr_right fun hx => ⟨fun hax => ?_, hab.trans⟩
  exact lt_of_le_of_ne (hle x hx hax) fun hc => hb (hc ▸ hx)

/-- Any set of entries of the view has a first one, or is empty. -/
theorem exists_isFirst_view (t : LevelDBTransaction K V) (d : Direction) (S : Set (d.Rank O)) :
    ∃ p, IsFirst {x | x ∈ (t.overlay d).view ∧ x ∈ S} p := by
  rcases Set.eq_empty_or_nonempty {x | x ∈ (t.overlay d).view ∧ x ∈ S} with hempty | hne
  · exact ⟨⊤, IsFirst.top_iff.mpr fun y hy => Set.notMem_empty y (hempty ▸ hy)⟩
  · obtain ⟨x, hx, hmin⟩ := Set.exists_min_image _ id
      ((ranks_finite t.commit d).subset fun x hx => mem_ranks_commit.mpr hx.1) hne
    exact ⟨x, IsFirst.coe_iff.mpr ⟨hx, hmin⟩⟩

/-! ## Seeking -/

theorem quiet_seek (t : LevelDBTransaction K V) (target : K) :
    Quiet t (TransactionIterator.create.seek t target) :=
  (quiet_create t).seek target

/-- A seek to the end stands on the last entry of the view. -/
theorem isFirst_seekToLast_currentKey (t : LevelDBTransaction K V) (it : TransactionIterator K) :
    IsFirst (t.overlay .reverse).view (position .reverse (it.seekToLast t).currentKey) := by
  refine ((ready_seekToLast t it).isFirst (Overlay.covers_of_isFirst ?_)).congr fun x =>
    and_iff_left trivial
  exact t.m_tree.isFirst_last.congr fun x => (and_iff_left trivial).symm

/-- A seek to an entry of the view finds it. -/
theorem currentKey_seek_of_isSome (target : K) (h : (t.view (rank target : O)).isSome) :
    ∃ k, (TransactionIterator.create.seek t target).currentKey = some k ∧
      (rank k : O) = rank target := by
  have hfirst := TransactionIterator.isFirst_seek_currentKey t create target
  have hpos : position .forward (TransactionIterator.create.seek t target).currentKey =
      (forward.ofRank (rank target) : forward.Rank O) :=
    hfirst.unique (IsFirst.coe_iff.mpr ⟨⟨mem_view_iff.mpr h, le_rfl⟩, fun y hy => hy.2⟩)
  obtain ⟨k, hk, hr⟩ := position_eq_coe_iff.mp hpos
  exact ⟨k, hk, hr⟩

/-- `b` is a deleted key of the database, right after the untouched key `a`: there is no other key
of the database and no entry of the view between them. -/
structure Resurfaces (t : LevelDBTransaction K V) (a b : O) : Prop where
  lt : a < b
  untouched : (t.m_db.lookup a).isSome ∧ t.m_tree.lookup a = none
  deleted : (t.m_db.lookup b).isSome ∧ t.view b = none
  between : ∀ c, a < c → c < b → t.m_db.lookup c = none ∧ t.view c = none

theorem Resurfaces.notMem_live (h : Resurfaces t a b) :
    ∀ z ∈ (t.overlay .forward).live, forward.ofRank a < z →
      forward.ofRank b < z := by
  intro z hz haz
  have hview := mem_view_iff.mp (show z ∈ (t.overlay .forward).view from Or.inl hz)
  rcases lt_trichotomy (forward.ofRank b) z with hlt | heq | hgt
  · exact hlt
  · have : t.view (forward.toRank z) = none := heq ▸ h.deleted.2
    rw [this] at hview
    cases hview
  · have : t.view (forward.toRank z) = none := (h.between z haz hgt).2
    rw [this] at hview
    cases hview

/-- The step after a seek shows a key that resurfaces. -/
theorem position_next_of_resurfaces (target : K)
    (hk : (TransactionIterator.create.seek t target).currentKey = some k)
    (h : Resurfaces t (rank k) b) :
    position .forward ((TransactionIterator.create.seek t target).next t).currentKey =
      (forward.ofRank b : forward.Rank O) := by
  have hq := quiet_seek t target
  have hs : (TransactionIterator.create.seek t target).Straight .forward := by
    refine ⟨(ready_seek (O := O) t create target).direction_settle, ?_⟩
    rcases cursor_of_currentKey hk with ⟨-, hτ⟩ | ⟨hc, -⟩
    · have hsome := (hq.coherent.onKeys.tree k hτ).isSome (O := O)
      rw [h.untouched.2] at hsome
      cases hsome
    · exact hc
  refine position_move_of_passed hq hk hs ?_ h.notMem_live
  refine IsFirst.coe_iff.mpr ⟨⟨h.deleted.1, h.lt⟩, fun y hy => ?_⟩
  by_contra hlt
  have hbase : (t.m_db.lookup (forward.toRank y)).isSome := hy.1
  have hnone : t.m_db.lookup (forward.toRank y) = none :=
    (h.between y hy.2 (not_le.mp hlt)).1
  rw [hnone] at hbase
  cases hbase

/-- When no key resurfaces, the step after a seek leads to the next entry of the view. -/
theorem isFirst_next_of_seek (target : K)
    (hk : (TransactionIterator.create.seek t target).currentKey = some k)
    (h : ∀ b : O, ¬ Resurfaces t (rank k) b) :
    IsFirst {x | x ∈ (t.overlay .forward).view ∧ forward.ofRank (rank k) < x}
      (position .forward ((TransactionIterator.create.seek t target).next t).currentKey) := by
  have hq := quiet_seek t target
  rw [TransactionIterator.next, move_eq (hq.isValid_of_currentKey hk)]
  refine (ready_moved hq.coherent hk .forward).isFirst
    (covers_moved hq.coherent hk .forward fun hs => ?_)
  have hδ := (currentKey_of_db hs.2).symm.trans hk
  have hlive := hq.live hs.2 k hδ
  rw [hs.1] at hlive
  rw [hq.refreshIfChanged]
  intro e he hke heτ
  obtain ⟨heo, hor⟩ := (t.overlay .forward).changed_subset he
  have hel : e ∉ (t.overlay .forward).live := fun hl => absurd (hlive.le e ⟨hl, hke⟩) (not_le.mpr heτ)
  -- the next key of the database is no later than `e`, and is not deleted
  have hfirst := t.m_db.isFirst_step .forward k
  have hle := hfirst.le e ⟨hor.resolve_left hel, hke⟩
  obtain ⟨y, hy⟩ : ∃ y : forward.Rank O, position .forward (t.m_db.step .forward k) = y := by
    cases hc : position .forward (t.m_db.step .forward k) with
    | top => exact absurd (hc ▸ hle) (by simp)
    | coe y => exact ⟨y, rfl⟩
  rw [hy] at hfirst hle
  obtain ⟨⟨hyb, hky⟩, hmin⟩ := IsFirst.coe_iff.mp hfirst
  have hye : y ≤ e := WithTop.coe_le_coe.mp hle
  have hyτ : (y : WithTop (forward.Rank O)) <
      position .forward (TransactionIterator.create.seek t target).m_treeIterator :=
    hle.trans_lt heτ
  have hyl : ∀ z ∈ (t.overlay .forward).live, forward.ofRank (rank k) < z → y < z :=
    fun z hz hkz => WithTop.coe_lt_coe.mp (hyτ.trans_le (hlive.le z ⟨hz, hkz⟩))
  by_cases hyo : y ∈ (t.overlay .forward).layer
  · refine absurd ?_ (h (forward.toRank y))
    have hnone : ∀ c : forward.Rank O, forward.ofRank (rank k) < c → c ≤ y →
        c ∉ (t.overlay .forward).view := by
      rintro c hkc hcy (hl | ⟨hb, ho⟩)
      · exact absurd (hyl c hl hkc) (not_lt.mpr hcy)
      · obtain rfl : c = y := hcy.antisymm (hmin c ⟨hb, hkc⟩)
        exact ho hyo
    refine ⟨hky, ⟨(hq.coherent.onKeys.db k hδ).isSome, ?_⟩, ⟨hyb, ?_⟩, fun c hkc hcy => ⟨?_, ?_⟩⟩
    · exact ((quiet_create t).follows_seek target).untouched hs.2 k hδ
    · exact Option.not_isSome_iff_eq_none.mp fun hc => hnone y hky le_rfl (mem_view_iff.mpr hc)
    · by_contra hc
      exact absurd (hmin c ⟨Option.isSome_iff_ne_none.mpr hc, hkc⟩) (not_le.mpr hcy)
    · exact Option.not_isSome_iff_eq_none.mp fun hc =>
        hnone c hkc (le_of_lt hcy) (mem_view_iff.mpr hc)
  · refine ⟨y, hyb, fun hc => hyo ((t.overlay .forward).changed_subset hc).1, hky, ?_⟩
    exact lt_of_le_of_ne hye fun hc => hyo (hc ▸ heo)

end LevelDB
end WebKit
