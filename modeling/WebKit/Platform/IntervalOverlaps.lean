import WebKit.Platform.PODIntervalTree
import WebKit.Platform.RedBlackDeletion

/-!
# The stored intervals and their overlaps

After any additions and removals the tree holds the multiset of intervals that one expects
(`stored`), each node knows the greatest high endpoint below it (`MaxHighs`), and therefore the
search misses no interval: `intervalTree_run`.
-/

namespace WebKit

open List
namespace Platform

open Node (null node make)
open PODRedBlackTree (rotate)

variable {T U : Type*} [LinearOrder T]

/-- An interval apart from its augmentation. -/
structure Interval (T U : Type*) where
  low : T
  high : T
  data : U
  deriving DecidableEq

def PODInterval.interval (i : PODInterval T U) : Interval T U := ⟨i.low, i.high, i.data⟩

namespace PODIntervalTree

/-! ## The greatest high endpoint -/

/-- The greatest high endpoint. -/
def greatestHigh (intervals : List (Interval T U)) : WithBot T :=
  intervals.foldr (fun i m => max ↑i.high m) ⊥

theorem greatestHigh_append (intervals intervals' : List (Interval T U)) :
    greatestHigh (intervals ++ intervals') = max (greatestHigh intervals) (greatestHigh intervals') := by
  induction intervals with
  | nil => exact (max_eq_right bot_le).symm
  | cons i intervals ih =>
    exact (congrArg (max _) ih).trans (max_assoc _ _ _).symm

theorem coe_maxWith {t : Node (PODInterval T U)}
    (h : HasTotal (fun i => (i.maxHigh : WithBot T)) greatestHigh t intervals) :
    ((maxWith curMax t : T) : WithBot T) = max ↑curMax (greatestHigh intervals) := by
  cases t with
  | null =>
    have hempty : greatestHigh intervals = ⊥ := h
    rw [hempty]
    exact (max_eq_left bot_le).symm
  | node color data l r =>
    have htop : (data.maxHigh : WithBot T) = greatestHigh intervals := h
    rw [← htop, maxWith]
    split
    · rename_i hlt
      exact (max_eq_right (WithBot.coe_le_coe.mpr (le_of_lt hlt))).symm
    · rename_i hge
      exact (max_eq_left (WithBot.coe_le_coe.mpr (le_of_not_gt hge))).symm

/-- `updateNode` takes the maximum of the endpoint and the children. -/
theorem maxHigh_updateNode (data : PODInterval T U) (left right : Node (PODInterval T U)) :
    (updateNode data left right).1.maxHigh = maxWith (maxWith data.high left) right ∧
      (updateNode data left right).1.interval = data.interval := by
  rw [updateNode]
  split
  · rename_i hsame
    exact ⟨hsame.symm, rfl⟩
  · exact ⟨rfl, rfl⟩

section

variable {intervals : List (Interval T U)}

theorem greatestHigh_le :
    greatestHigh intervals ≤ m ↔ ∀ i ∈ intervals, (i.high : WithBot T) ≤ m := by
  induction intervals with
  | nil => exact iff_of_true bot_le fun i hi => absurd hi not_mem_nil
  | cons i intervals ih =>
    rw [greatestHigh, foldr_cons, max_le_iff, forall_mem_cons]
    exact and_congr_right fun _ => ih

theorem exists_greatestHigh (h : intervals ≠ []) :
    ∃ i ∈ intervals, greatestHigh intervals = i.high := by
  induction intervals with
  | nil => exact absurd rfl h
  | cons i intervals ih =>
    by_cases hrest : intervals = []
    · subst hrest
      exact ⟨i, mem_cons_self, max_eq_left bot_le⟩
    · obtain ⟨j, hj, hmax⟩ := ih hrest
      have hcons : greatestHigh (i :: intervals) = max ↑i.high ↑j.high := by
        rw [← hmax]
        rfl
      rcases le_total (i.high : WithBot T) j.high with hle | hle
      · exact ⟨j, mem_cons_of_mem i hj, hcons.trans (max_eq_right hle)⟩
      · exact ⟨i, mem_cons_self, hcons.trans (max_eq_left hle)⟩

theorem coe_eq_greatestHigh (h : intervals ≠ []) {m : T} :
    (m : WithBot T) = greatestHigh intervals ↔
      IsGreatest {high | ∃ i ∈ intervals, i.high = high} m := by
  obtain ⟨j, hj, hmax⟩ := exists_greatestHigh h
  constructor
  · intro hm
    refine ⟨⟨j, hj, WithBot.coe_inj.mp (hmax.symm.trans hm.symm)⟩, ?_⟩
    rintro high ⟨i, hi, rfl⟩
    exact WithBot.coe_le_coe.mp (greatestHigh_le.mp hm.symm.le i hi)
  · rintro ⟨⟨i, hi, rfl⟩, hupper⟩
    rw [hmax]
    refine congrArg _ (le_antisymm ?_ (hupper ⟨j, hj, rfl⟩))
    exact WithBot.coe_le_coe.mp (hmax ▸ greatestHigh_le.mp le_rfl i hi)

end

/-! ## Overlaps -/

/-- The interval shares a point with the query. -/
def Overlaps (i j : Interval T U) : Prop :=
  (Set.Icc i.low i.high ∩ Set.Icc j.low j.high).Nonempty

/-- The intervals that overlap the query. -/
noncomputable def overlapping (s : Multiset (Interval T U)) (q : Interval T U) :
    Multiset (Interval T U) :=
  open Classical in s.filter fun i => Overlaps i q

theorem overlaps_iff {j : Interval T U} (hi : i.low ≤ i.high) (hj : j.low ≤ j.high) :
    Overlaps i j ↔ j.low ≤ i.high ∧ i.low ≤ j.high := by
  constructor
  · rintro ⟨x, ⟨hix, hxi⟩, hjx, hxj⟩
    exact ⟨hjx.trans hxi, hix.trans hxj⟩
  · rintro ⟨hji, hij⟩
    rcases le_total i.low j.low with hle | hle
    · exact ⟨j.low, ⟨hle, hji⟩, le_refl _, hj⟩
    · exact ⟨i.low, ⟨le_refl _, hi⟩, hle, hij⟩

theorem overlaps_eq (data : PODInterval T U) (lowValue highValue : T) :
    data.overlaps lowValue highValue = decide (lowValue ≤ data.high ∧ data.low ≤ highValue) := by
  rw [PODInterval.overlaps]
  split
  · rename_i hlt
    exact (decide_eq_false fun h => absurd h.1 (not_le_of_gt hlt)).symm
  · rename_i hge
    split
    · rename_i hlt
      exact (decide_eq_false fun h => absurd h.2 (not_le_of_gt hlt)).symm
    · rename_i hge'
      exact (decide_eq_true ⟨le_of_not_gt hge, le_of_not_gt hge'⟩).symm

section View

variable [DecidableEq U]

/-! ## The view of the red-black tree -/

/-- Intervals in the order of their low endpoints. -/
def view (T U : Type*) [LinearOrder T] [DecidableEq U] :
    View (element T U) (Interval T U) (WithBot T) T where
  key := PODInterval.interval
  rank := Interval.low
  summary i := i.maxHigh
  total := greatestHigh
  less_iff := decide_eq_true_iff
  equal_iff := by
    intro i j
    simp [element, PODInterval.equal, PODInterval.interval, and_assoc]
  total_congr := by
    intro keys keys' h before after
    rw [greatestHigh_append, greatestHigh_append, greatestHigh_append, greatestHigh_append, h]
  key_update := fun {d l r} => (maxHigh_updateNode d l r).2
  summary_update := by
    intro d l r keys keys' hl hr
    have hmax := (maxHigh_updateNode d l r).1
    change (((updateNode d l r).1.maxHigh : T) : WithBot T) = _
    rw [hmax, coe_maxWith hr, coe_maxWith hl, greatestHigh_append]
    change max (max ↑d.high (greatestHigh keys)) (greatestHigh keys') =
      max (greatestHigh keys) (max ↑d.high (greatestHigh keys'))
    rw [max_comm (d.high : WithBot T), max_assoc]
  unchanged := by
    intro d l r h
    change (updateNode d l r).2 = false at h
    change (updateNode d l r).1 = d
    rw [updateNode] at h ⊢
    split at h
    · rw [if_pos ‹_›]
    · cases h

/-- The stored intervals, in order. -/
def intervals (t : Node (PODInterval T U)) : List (Interval T U) := t.keys PODInterval.interval

/-- Each node knows the greatest high endpoint of its subtree. -/
def MaxHighs : Node (PODInterval T U) → Prop
  | null => True
  | node color data left right =>
    MaxHighs left ∧ MaxHighs right ∧
      IsGreatest {high | ∃ i ∈ intervals (node color data left right), i.high = high} data.maxHigh

theorem summarised_iff : ∀ t : Node (PODInterval T U), (view T U).Summarised t ↔ MaxHighs t
  | null => Iff.rfl
  | node color data left right => by
    have hne : intervals (node color data left right) ≠ [] := by
      exact append_ne_nil_of_right_ne_nil _ (cons_ne_nil _ _)
    exact and_congr (summarised_iff left)
      (and_congr (summarised_iff right) (coe_eq_greatestHigh hne))

/-! ## The search -/

/-- The search appends the overlaps in order: a subtree that is not traversed has none. -/
theorem searchForOverlapsFrom_eq (lowValue highValue : T) : ∀ (t : Node (PODInterval T U))
    (result : List (PODInterval T U)), MaxHighs t → (view T U).Sorted (intervals t) →
      (searchForOverlapsFrom lowValue highValue t result).map PODInterval.interval =
        result.map PODInterval.interval ++
          (intervals t).filter fun i => decide (lowValue ≤ i.high ∧ i.low ≤ highValue)
  | null, result, _, _ => (append_nil _).symm
  | node color data left right, result, hmax, hsorted => by
    obtain ⟨hleft, hright, hgreatest⟩ := hmax
    rw [intervals, Node.keys, View.Sorted, pairwise_append, pairwise_cons] at hsorted
    obtain ⟨hsl, ⟨hdr, hsr⟩, hlr⟩ := hsorted
    have hskipLeft : reaches left lowValue = false → (intervals left).filter
          (fun i => decide (lowValue ≤ i.high ∧ i.low ≤ highValue)) = [] := by
      intro hreaches
      cases left with
      | null => rfl
      | node c d l r =>
        have hlt : d.maxHigh < lowValue := by
          simpa [reaches] using hreaches
        refine filter_eq_nil_iff.mpr fun i hi => ?_
        have hle : i.high ≤ d.maxHigh := hleft.2.2.2 ⟨i, hi, rfl⟩
        simp [not_le_of_gt (lt_of_le_of_lt hle hlt)]
    have hskipRight : highValue < data.low → (intervals right).filter
          (fun i => decide (lowValue ≤ i.high ∧ i.low ≤ highValue)) = [] := by
      intro hlt
      refine filter_eq_nil_iff.mpr fun i hi => ?_
      have hle : data.low ≤ i.low := hdr i hi
      simp [not_le_of_gt (lt_of_lt_of_le hlt hle)]
    have hsearchLeft : (if reaches left lowValue = true then
        searchForOverlapsFrom lowValue highValue left result else result).map PODInterval.interval =
        result.map PODInterval.interval ++ (intervals left).filter
          (fun i => decide (lowValue ≤ i.high ∧ i.low ≤ highValue)) := by
      split
      · exact searchForOverlapsFrom_eq lowValue highValue left result hleft hsl
      · rename_i hreaches
        rw [hskipLeft (Bool.eq_false_of_not_eq_true hreaches), append_nil]
    have hfilter : (intervals (node color data left right)).filter
          (fun i => decide (lowValue ≤ i.high ∧ i.low ≤ highValue)) =
        (intervals left).filter (fun i => decide (lowValue ≤ i.high ∧ i.low ≤ highValue)) ++
          ((if data.overlaps lowValue highValue = true then [data.interval] else []) ++
            (intervals right).filter
              (fun i => decide (lowValue ≤ i.high ∧ i.low ≤ highValue))) := by
      rw [intervals, Node.keys, filter_append, filter_cons, overlaps_eq]
      change _ ++ (if decide (lowValue ≤ data.high ∧ data.low ≤ highValue) = true then _ else _) = _
      split <;> rfl
    rw [searchForOverlapsFrom]
    generalize (if reaches left lowValue = true then
      searchForOverlapsFrom lowValue highValue left result else result) = found at hsearchLeft ⊢
    have hsearchData : (if data.overlaps lowValue highValue = true then found ++ [data]
        else found).map PODInterval.interval = found.map PODInterval.interval ++
          (if data.overlaps lowValue highValue = true then [data.interval] else []) := by
      split
      · exact map_append
      · exact (append_nil _).symm
    generalize (if data.overlaps lowValue highValue = true then found ++ [data] else found) =
      found' at hsearchData ⊢
    rw [hfilter, ← append_assoc, ← hsearchLeft, ← append_assoc, ← hsearchData]
    split
    · rename_i hlt
      rw [hskipRight hlt, append_nil]
    · exact searchForOverlapsFrom_eq lowValue highValue right found' hright hsr

/-! ## Runs -/

def Operation.interval : Operation T U → PODInterval T U
  | add i => i
  | remove i => i

/-- The multiset that the operations make. -/
def stored (s : Multiset (Interval T U)) : List (Operation T U) → Multiset (Interval T U)
  | [] => s
  | .add i :: operations => stored (i.interval ::ₘ s) operations
  | .remove i :: operations => stored (s.erase i.interval) operations

/-- The tree holds the multiset. -/
structure Holds (root : Node (PODInterval T U)) (s : Multiset (Interval T U)) : Prop where
  isRight : IsRight (view T U) root
  intervals : (intervals root : Multiset (Interval T U)) = s

variable {root : Node (PODInterval T U)} {s : Multiset (Interval T U)}

theorem Holds.add (h : Holds root s) (i : PODInterval T U) :
    ∃ root', add root i = some root' ∧ Holds root' (i.interval ::ₘ s) := by
  obtain ⟨root', hroot, hright, hperm⟩ := h.isRight.add i
  refine ⟨root', hroot, hright, ?_⟩
  rw [← h.intervals]
  exact Multiset.coe_eq_coe.mpr hperm

theorem Holds.remove (h : Holds root s) (i : PODInterval T U) :
    ∃ root', remove root i = some (root', decide (i.interval ∈ s)) ∧
      Holds root' (s.erase i.interval) := by
  obtain ⟨root', hroot, hright, hperm⟩ := h.isRight.remove i
  have hmem : i.interval ∈ s ↔ i.interval ∈ PODIntervalTree.intervals root := by
    rw [← h.intervals, Multiset.mem_coe]
  refine ⟨root', ?_, hright, ?_⟩
  · rw [decide_eq_decide.mpr hmem]
    exact hroot
  · rw [← h.intervals]
    exact Multiset.coe_eq_coe.mpr hperm

theorem Holds.run : ∀ (operations : List (Operation T U)) {root : Node (PODInterval T U)}
    {s : Multiset (Interval T U)}, Holds root s →
      ∃ root', run root operations = some root' ∧ Holds root' (stored s operations)
  | [], root, _, h => ⟨root, rfl, h⟩
  | .add i :: operations, root, s, h => by
    obtain ⟨root', hroot, h'⟩ := h.add i
    obtain ⟨root'', hrun, h''⟩ := Holds.run operations h'
    refine ⟨root'', ?_, h''⟩
    rw [PODIntervalTree.run, step, hroot]
    exact hrun
  | .remove i :: operations, root, s, h => by
    obtain ⟨root', hroot, h'⟩ := h.remove i
    obtain ⟨root'', hrun, h''⟩ := Holds.run operations h'
    refine ⟨root'', ?_, h''⟩
    rw [PODIntervalTree.run, step, hroot]
    exact hrun

/-- The search finds the stored intervals that overlap the query, in order. -/
theorem Holds.allOverlaps (h : Holds root s) (hs : ∀ i ∈ s, i.low ≤ i.high) (hq : q.low ≤ q.high) :
    (allOverlaps root q).Pairwise (fun i j => i.low ≤ j.low) ∧
      ((allOverlaps root q).map PODInterval.interval : Multiset (Interval T U)) =
        overlapping s q.interval := by
  have hmax := (summarised_iff root).mp h.isRight.summarised
  have hsorted := h.isRight.sorted
  have hsearch := searchForOverlapsFrom_eq q.low q.high root [] hmax hsorted
  constructor
  · have hpairwise := hsorted.filter fun i => decide (q.low ≤ i.high ∧ i.low ≤ q.high)
    have hpairwise' : ((PODIntervalTree.allOverlaps root q).map PODInterval.interval).Pairwise
        fun i j => i.low ≤ j.low := by
      rw [PODIntervalTree.allOverlaps, hsearch]
      exact hpairwise
    exact (pairwise_map (R := fun i j : Interval T U => i.low ≤ j.low)).mp hpairwise'
  · rw [PODIntervalTree.allOverlaps, hsearch, ← h.intervals]
    refine congrArg _ (filter_congr fun i hi => ?_)
    have hi' : i.low ≤ i.high := hs i (h.intervals ▸ Multiset.mem_coe.mpr hi)
    exact decide_eq_decide.mpr (overlaps_iff (j := q.interval) hi' hq).symm

theorem stored_valid : ∀ (operations : List (Operation T U)) {s : Multiset (Interval T U)},
    (∀ i ∈ s, i.low ≤ i.high) →
      (∀ operation ∈ operations, operation.interval.low ≤ operation.interval.high) →
        ∀ i ∈ stored s operations, i.low ≤ i.high
  | [], _, hs, _ => hs
  | .add i :: operations, s, hs, hoperations => by
    refine stored_valid operations ?_ fun operation h => hoperations _ (mem_cons_of_mem _ h)
    intro j hj
    rcases Multiset.mem_cons.mp hj with rfl | hj
    · exact hoperations (.add i) mem_cons_self
    · exact hs j hj
  | .remove i :: operations, s, hs, hoperations => by
    refine stored_valid operations ?_ fun operation h => hoperations _ (mem_cons_of_mem _ h)
    exact fun j hj => hs j (Multiset.mem_of_mem_erase hj)

/-- After any operations the tree is there, the search finds exactly the overlaps, a removal finds
exactly what is stored, and every node knows its maximum, which rotations preserve. -/
theorem intervalTree_run (operations : List (Operation T U))
    (hoperations : ∀ operation ∈ operations, operation.interval.low ≤ operation.interval.high) :
    ∃ root, run null operations = some root ∧
      (intervals root : Multiset (Interval T U)) = stored 0 operations ∧
      (∀ q : PODInterval T U, q.low ≤ q.high →
        (allOverlaps root q).Pairwise (fun i j => i.low ≤ j.low) ∧
          ((allOverlaps root q).map PODInterval.interval : Multiset (Interval T U)) =
            overlapping (stored 0 operations) q.interval) ∧
      (∀ i : PODInterval T U, ∃ root',
        remove root i = some (root', decide (i.interval ∈ stored 0 operations)) ∧
          (intervals root' : Multiset (Interval T U)) =
            (stored 0 operations).erase i.interval ∧ MaxHighs root') ∧
      MaxHighs root ∧
      ∀ side cx (dx : PODInterval T U) a cy dy b c, MaxHighs a → MaxHighs b → MaxHighs c →
        ∃ t, rotate (element T U) side (make side cx dx a (make side cy dy b c)) = some t ∧
          MaxHighs t := by
  have hempty : Holds (null : Node (PODInterval T U)) 0 := ⟨isRight_null, rfl⟩
  obtain ⟨root, hrun, hholds⟩ := hempty.run operations
  have hvalid := stored_valid operations (fun i hi => absurd hi (Multiset.notMem_zero i))
    hoperations
  refine ⟨root, hrun, hholds.intervals, fun q hq => hholds.allOverlaps hvalid hq, fun i => ?_,
    (summarised_iff root).mp hholds.isRight.summarised, ?_⟩
  · obtain ⟨root', hremove, hholds'⟩ := hholds.remove i
    exact ⟨root', hremove, hholds'.intervals, (summarised_iff root').mp hholds'.isRight.summarised⟩
  · intro side cx dx a cy dy b c ha hb hc
    obtain ⟨dx', dy', hrotate, -, -, hsummarised⟩ :=
      View.rotate_make (V := view T U) side cx dx a cy dy b c
    have htop := (hsummarised ((summarised_iff a).mpr ha) ((summarised_iff b).mpr hb)
      ((summarised_iff c).mpr hc)).2
    exact ⟨_, hrotate, (summarised_iff _).mp htop⟩

/-- Two intervals with the same low endpoint, one of which is removed. -/
theorem intervalTree_run_three : ∃ root : Node (PODInterval ℕ ℕ),
    run null [.add (.create 1 2 0), .add (.create 1 5 0), .remove (.create 1 2 0)] = some root ∧
      (intervals root : Multiset (Interval ℕ ℕ)) =
        stored 0 [.add (.create 1 2 0), .add (.create 1 5 0), .remove (.create 1 2 0)] := by
  obtain ⟨root, hrun, hintervals, -⟩ := intervalTree_run
    [.add (.create 1 2 0), .add (.create 1 5 0), .remove (.create 1 2 0)] (by decide)
  exact ⟨root, hrun, hintervals⟩

end View

end PODIntervalTree

end Platform
end WebKit
