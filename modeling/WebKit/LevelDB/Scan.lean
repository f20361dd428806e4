import WebKit.LevelDB.Walk

/-!
# What a scan of a transaction meets

A caller that seeks and then only moves on meets the entries of the view, and some of the deleted
keys: those behind an untouched key of the database, with no live node in between.  The tree cursor
has passed over their markers before the database cursor comes to them.
-/

namespace WebKit

open Direction

namespace Overlay

variable {L : Type*} [LinearOrder L] {V : Overlay L} {U : Set L}

/-- A deleted element that is met again, from an element of `U` on. -/
structure Reappears (V : Overlay L) (U : Set L) (b : L) : Prop where
  base : b ∈ V.base
  layer : b ∈ V.layer
  deleted : b ∉ V.live
  behind : ∃ a ∈ U, a ∈ V.base ∧ a ∉ V.layer ∧ a < b ∧ ∀ c ∈ V.live, a < c → b < c

/-- What a scan of `U` meets. -/
def met (V : Overlay L) (U : Set L) : Set L := {x | (x ∈ V.view ∧ x ∈ U) ∨ V.Reappears U x}

theorem Reappears.mem (h : V.Reappears U b) (hU : IsUpperSet U) : b ∈ U := by
  obtain ⟨a, haU, -, -, hab, -⟩ := h.behind
  exact hU hab.le haU

theorem met_subset (hU : IsUpperSet U) {x : L} (hx : x ∈ V.met U) :
    x ∈ U ∧ (x ∈ V.base ∨ x ∈ V.live) := by
  rcases hx with ⟨hview, hxU⟩ | h
  · exact ⟨hxU, hview.symm.imp And.left id⟩
  · exact ⟨h.mem hU, .inl h.base⟩

/-- Behind a live element the next one met is the next one of the view. -/
theorem isFirst_met_of_live {x : L} {p : WithTop L} (hU : IsUpperSet U) (hx : x ∈ V.live)
    (hxU : x ∈ U) (hp : IsFirst {y | y ∈ V.view ∧ x < y} p) :
    IsFirst {y | y ∈ V.met U ∧ x < y} p := by
  constructor
  · intro y hy
    obtain ⟨hview, hlt⟩ := hp.mem y hy
    exact ⟨.inl ⟨hview, hU hlt.le hxU⟩, hlt⟩
  · rintro y ⟨⟨hview, -⟩ | h, hlt⟩
    · exact hp.le y ⟨hview, hlt⟩
    · -- the untouched element in front of it comes after the live one
      obtain ⟨a, -, hbase, hlayer, hay, hlive⟩ := h.behind
      have hxa : x < a := by
        rcases lt_trichotomy x a with hlt' | rfl | hgt
        · exact hlt'
        · exact absurd (V.live_subset hx) hlayer
        · exact absurd (hlive x hx hgt) (not_lt.mpr hlt.le)
      exact (hp.le a ⟨.inr ⟨hbase, hlayer⟩, hxa⟩).trans (WithTop.coe_le_coe.mpr hay.le)

/-- Behind an element of the base that is not live comes the next of the base or the live ones. -/
theorem isFirst_met_of_base {x : L} {p : WithTop L} (hU : IsUpperSet U) (hx : x ∈ V.met U)
    (hlive : x ∉ V.live) (hp : IsFirst {y | (y ∈ V.base ∨ y ∈ V.live) ∧ x < y} p) :
    IsFirst {y | y ∈ V.met U ∧ x < y} p := by
  have hxU : x ∈ U := (met_subset hU hx).1
  -- an untouched element from which on nothing is live
  have hbehind : ∃ a ∈ U, a ∈ V.base ∧ a ∉ V.layer ∧ a ≤ x ∧ ∀ c ∈ V.live, a < c → x < c := by
    rcases hx with ⟨hview, -⟩ | h
    · obtain ⟨hbase, hlayer⟩ := hview.resolve_left hlive
      exact ⟨x, hxU, hbase, hlayer, le_rfl, fun c _ hc => hc⟩
    · obtain ⟨a, haU, hbase, hlayer, hax, hno⟩ := h.behind
      exact ⟨a, haU, hbase, hlayer, hax.le, hno⟩
  constructor
  · intro y hy
    obtain ⟨hor, hlt⟩ := hp.mem y hy
    have hyU : y ∈ U := hU hlt.le hxU
    refine ⟨?_, hlt⟩
    by_cases hylive : y ∈ V.live
    · exact .inl ⟨.inl hylive, hyU⟩
    have hbase := hor.resolve_right hylive
    by_cases hlayer : y ∈ V.layer
    · obtain ⟨a, haU, habase, halayer, hax, hno⟩ := hbehind
      refine .inr ⟨hbase, hlayer, hylive, a, haU, habase, halayer, hax.trans_lt hlt,
        fun c hc hac => ?_⟩
      have hle := hp.le c ⟨.inr hc, hno c hc hac⟩
      rw [hy] at hle
      refine lt_of_le_of_ne (WithTop.coe_le_coe.mp hle) ?_
      rintro rfl
      exact hylive hc
    · exact .inl ⟨.inr ⟨hbase, hlayer⟩, hyU⟩
  · rintro y ⟨hmet, hlt⟩
    exact hp.le y ⟨(met_subset hU hmet).2, hlt⟩

end Overlay

namespace LevelDB

open LevelDBTransaction TransactionIterator

variable {K V O : Type*} [Comparator K] [LinearOrder O] [Ranked K O]
variable {t : LevelDBTransaction K V} {it : TransactionIterator K} {d : Direction}
variable {U : Set (d.Rank O)} {k : K}

/-! ## One move -/

/-- A current tree cursor stands on a live node. -/
theorem mem_live_of_ready (h : Ready t d U it)
    (hc : (it.settle t).m_current = some .treeIterator) (hk : (it.settle t).currentKey = some k) :
    (d.ofRank (rank k) : d.Rank O) ∈ (t.overlay d).live := by
  have hs := settledTo_settle h.direction h.onKeys
  rw [currentKey_of_tree hc] at hk
  exact (hs.settled.live.mem _ (by rw [hk]; rfl)).1

/-- A current database cursor does not stand on a live node. -/
theorem notMem_live_of_ready (h : Ready t d U it)
    (hlive : ∀ y ∈ (t.overlay d).live, y ∈ U → position d it.m_treeIterator ≤ y)
    (hc : (it.settle t).m_current = some .dbIterator) (hk : (it.settle t).currentKey = some k) :
    (d.ofRank (rank k) : d.Rank O) ∉ (t.overlay d).live := by
  have hs := settledTo_settle h.direction h.onKeys
  rw [currentKey_of_db hc] at hk
  have hlt := (hs.db hc).2
  rw [hk] at hlt
  have hmem := hs.settled.base.mem (d.ofRank (rank k)) (by rw [hk]; rfl)
  have hkU : d.ofRank (rank k) ∈ U :=
    Overlay.Settled.mem_of_le h.upper (fun x hx => (h.base.mem x hx).2) hmem.2.1
  intro hin
  exact absurd (hs.settled.live.le _ ⟨hin, hlive _ hin hkU⟩) (not_le.mpr hlt)

/-- A straight move leads to the next key of the database or the next live node. -/
theorem isFirst_move_of_straight (h : Quiet t it) (hk : it.currentKey = some k)
    (hs : it.Straight d) :
    IsFirst {x | (x ∈ (t.overlay d).base ∨ x ∈ (t.overlay d).live) ∧ d.ofRank (rank k) < x}
      (position d (it.move d t).currentKey) := by
  have hready := ready_moved h.coherent hk d
  have hset := settledTo_settle hready.direction hready.onKeys
  have hτ : IsFirst {x | x ∈ (t.overlay d).live ∧ d.ofRank (rank k) < x}
      (position d (it.moved d t).m_treeIterator) := by
    obtain ⟨rfl, hc⟩ := hs
    rw [moved_tree_of_straight ⟨rfl, hc⟩, h.refreshIfChanged]
    exact h.live hc k ((currentKey_of_db hc).symm.trans hk)
  have hδ := hready.base
  have hsettled := hset.settled
  rw [move_eq (h.isValid_of_currentKey hk), hset.position_currentKey]
  constructor
  · intro x hx
    rcases min_choice (position d ((it.moved d t).settle t).m_treeIterator)
      (position d ((it.moved d t).settle t).m_dbIterator) with hmin | hmin
    · obtain ⟨hlive, hle⟩ := hsettled.live.mem x (hmin.symm.trans hx)
      refine ⟨.inr hlive, ?_⟩
      exact Overlay.Settled.mem_of_le hready.upper (fun y hy => (hτ.mem y hy).2) hle
    · obtain ⟨hbase, hle, -⟩ := hsettled.base.mem x (hmin.symm.trans hx)
      refine ⟨.inl hbase, ?_⟩
      exact Overlay.Settled.mem_of_le hready.upper (fun y hy => (hδ.mem y hy).2) hle
  · rintro y ⟨hbase | hlive, hlt⟩
    · by_cases hpassed : y ∈ (t.overlay d).layer ∧ position d (it.moved d t).m_treeIterator ≤ y ∧
          (y : WithTop (d.Rank O)) ≤ position d ((it.moved d t).settle t).m_treeIterator
      · -- the live node on which the tree cursor stands is no further than `y`
        refine (min_le_left _ _).trans ?_
        cases hc : position d (it.moved d t).m_treeIterator with
        | top => exact absurd (hc ▸ hpassed.2.1) (by simp)
        | coe z =>
          have hz := hsettled.live.le z ⟨(hτ.mem z hc).1, hc.le⟩
          exact hz.trans (hc ▸ hpassed.2.1)
      · exact (min_le_right _ _).trans (hsettled.base.le y ⟨hbase, hδ.le y ⟨hbase, hlt⟩, hpassed⟩)
    · exact (min_le_left _ _).trans (hsettled.live.le y ⟨hlive, hτ.le y ⟨hlive, hlt⟩⟩)

/-! ## Scans -/

/-- An iterator that was placed by a seek to the first element of `U` and moved on since. -/
structure Scanning (t : LevelDBTransaction K V) (U : Set (forward.Rank O))
    (it : TransactionIterator K) : Prop where
  quiet : Quiet t it
  direction : it.m_direction = .forward
  met : ∀ k, it.currentKey = some k → forward.ofRank (rank k) ∈ (t.overlay .forward).met U
  tree : it.m_current = some .treeIterator → ∀ k, it.currentKey = some k →
    (forward.ofRank (rank k) : forward.Rank O) ∈ (t.overlay .forward).live
  db : it.m_current = some .dbIterator → ∀ k, it.currentKey = some k →
    (forward.ofRank (rank k) : forward.Rank O) ∉ (t.overlay .forward).live

/-- The ranks from the one of a key on. -/
def onward (O : Type*) [LinearOrder O] [Ranked K O] (start : K) : Set (forward.Rank O) :=
  {x | forward.ofRank (rank start) ≤ x}

theorem isUpperSet_onward (start : K) : IsUpperSet (onward O start) := isUpperSet_Ici _

theorem isFirst_seek_met (t : LevelDBTransaction K V) (start : K) :
    IsFirst ((t.overlay .forward).met (onward O start))
      (position .forward (TransactionIterator.create.seek t start).currentKey) := by
  have hfirst : IsFirst {x | x ∈ (t.overlay .forward).view ∧ x ∈ onward O start}
      (position .forward (TransactionIterator.create.seek t start).currentKey) :=
    isFirst_seek_currentKey t create start
  constructor
  · exact fun x hx => .inl (hfirst.mem x hx)
  · rintro x (hview | h)
    · exact hfirst.le x hview
    · obtain ⟨a, haU, hbase, hlayer, hax, -⟩ := h.behind
      exact (hfirst.le a ⟨.inr ⟨hbase, hlayer⟩, haU⟩).trans (WithTop.coe_le_coe.mpr hax.le)

theorem scanning_seek (t : LevelDBTransaction K V) (start : K) :
    Scanning t (onward O start) (TransactionIterator.create.seek t start) := by
  have hready := ready_seek (O := O) t create start
  refine ⟨quiet_seek t start, hready.direction_settle, fun k hk => ?_, fun hc k hk => ?_,
    fun hc k hk => ?_⟩
  · exact (isFirst_seek_met t start).mem _ (by rw [hk]; rfl)
  · exact mem_live_of_ready hready hc hk
  · refine notMem_live_of_ready hready (fun y hy hU => ?_) hc hk
    exact (t.m_tree.isFirst_seek start).le y ⟨(t.overlay .forward).live_subset hy, hU⟩

/-- A scan that moves on meets the next element. -/
theorem Scanning.next {U : Set (forward.Rank O)} (hU : IsUpperSet U)
    (h : Scanning t U it) (hk : it.currentKey = some k) :
    Scanning t U (it.next t) ∧ IsFirst {x | x ∈ (t.overlay .forward).met U ∧
      forward.ofRank (rank k) < x} (position .forward (it.next t).currentKey) := by
  have hmet := h.met k hk
  have hready := ready_moved h.quiet.coherent hk .forward
  have hnext : it.next t = (it.moved .forward t).settle t :=
    move_eq (h.quiet.isValid_of_currentKey hk)
  have hfirst : IsFirst {x | x ∈ (t.overlay .forward).met U ∧
      forward.ofRank (rank k) < x} (position .forward (it.next t).currentKey) := by
    rcases cursor_of_currentKey hk with ⟨hc, -⟩ | ⟨hc, -⟩
    · refine Overlay.isFirst_met_of_live hU (h.tree hc k hk) (Overlay.met_subset hU hmet).1
        (h.quiet.isFirst_move hk fun hs => ?_)
      have hcurrent := hs.2.symm.trans hc
      cases hcurrent
    · exact Overlay.isFirst_met_of_base hU hmet (h.db hc k hk)
        (isFirst_move_of_straight h.quiet hk ⟨h.direction, hc⟩)
  refine ⟨⟨h.quiet.move .forward, ?_, fun k' hk' => ?_, fun hc k' hk' => ?_,
    fun hc k' hk' => ?_⟩, hfirst⟩
  · rw [hnext]
    exact hready.direction_settle
  · exact (hfirst.mem _ (by rw [hk']; rfl)).1
  · rw [hnext] at hc hk'
    exact mem_live_of_ready hready hc hk'
  · rw [hnext] at hc hk'
    exact notMem_live_of_ready hready (h.quiet.live_moved hk .forward) hc hk'

end LevelDB
end WebKit
