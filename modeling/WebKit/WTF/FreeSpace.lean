import WebKit.WTF.MetaAllocator

/-!
# Free space

Between two calls the tree and the two hash maps hold the same nodes, each under its size, its start
and its end; every free interval is nonempty; and none ends where another starts, because
`addFreeSpace` joins what it adds with both neighbours.  The free intervals together with those handed
out contain each number as often after a call as before.
-/

namespace WebKit

open Finset Function
namespace WTF

open Tiling KeyIndex

/-- The tree and the hash maps hold the same nodes under their sizes, starts and ends. -/
structure Indexed (a : MetaAllocator) : Prop where
  sizes : ∀ n ∈ a.freeSpaceSizeMap.nodes, a.freeSpaceSizeMap.key n = (a.node n).size
  starts : Represents a.freeSpaceStartAddressMap a.freeSpaceSizeMap.nodes fun n => (a.node n).start
  ends : Represents a.freeSpaceEndAddressMap a.freeSpaceSizeMap.nodes fun n => (a.node n).stop
  allocated : ∀ n ∈ a.freeSpaceSizeMap.nodes, n < a.nextNode

/-- Free intervals are nonempty and no two of them are neighbours. -/
structure Separate (a : MetaAllocator) : Prop where
  pos : ∀ n ∈ a.freeSpaceSizeMap.nodes, 0 < (a.node n).size
  apart : ∀ m ∈ a.freeSpaceSizeMap.nodes, ∀ n ∈ a.freeSpaceSizeMap.nodes,
    (a.node m).stop ≠ (a.node n).start

/-- What holds of the free space between two calls. -/
structure Kept (a : MetaAllocator) : Prop where
  indexed : Indexed a
  separate : Separate a

namespace MetaAllocator

variable {a : MetaAllocator}

theorem mem_freeSpace (hn : n ∈ a.freeSpaceSizeMap.nodes) :
    a.node n ∈ a.freeSpace := Multiset.mem_map_of_mem a.node hn

theorem exists_of_mem_freeSpace (hI : I ∈ a.freeSpace) :
    ∃ n ∈ a.freeSpaceSizeMap.nodes, a.node n = I := Multiset.mem_map.mp hI

/-- The free intervals other than that of one node. -/
def otherSpace (a : MetaAllocator) (n : NodeID) : Multiset Extent :=
  (a.freeSpaceSizeMap.nodes.erase n).val.map a.node

theorem freeSpace_eq_cons (hn : n ∈ a.freeSpaceSizeMap.nodes) :
    a.freeSpace = a.node n ::ₘ a.otherSpace n := by
  unfold freeSpace otherSpace
  rw [erase_val, ← Multiset.map_cons, Multiset.cons_erase hn]

/-- The free intervals after a node was given another interval. -/
theorem freeSpace_update (b : MetaAllocator)
    (hnodes : b.freeSpaceSizeMap.nodes = insert n (a.freeSpaceSizeMap.nodes.erase n))
    (hnode : b.node = update a.node n I) : b.freeSpace = I ::ₘ a.otherSpace n := by
  have hnot : n ∉ a.freeSpaceSizeMap.nodes.erase n := notMem_erase n _
  unfold freeSpace otherSpace
  rw [hnodes, hnode, insert_val_of_notMem hnot, Multiset.map_cons, update_self]
  refine congrArg _ (Multiset.map_congr rfl fun m hm => update_of_ne ?_ _ _)
  exact ne_of_mem_erase hm

end MetaAllocator

/-! ## A node gets another interval -/

section Update

variable {a b : MetaAllocator} {n : NodeID} {I : Extent}

/-- A node was taken out of the tree, given another interval and put back, and the hash maps
followed. -/
structure Updated (a : MetaAllocator) (n : NodeID) (I : Extent) (b : MetaAllocator) : Prop where
  node : b.node = update a.node n I
  nodes : b.freeSpaceSizeMap.nodes = insert n (a.freeSpaceSizeMap.nodes.erase n)
  key : b.freeSpaceSizeMap.key = update a.freeSpaceSizeMap.key n I.size
  nextNode : b.nextNode = a.nextNode
  starts : Represents b.freeSpaceStartAddressMap b.freeSpaceSizeMap.nodes fun m => (b.node m).start
  ends : Represents b.freeSpaceEndAddressMap b.freeSpaceSizeMap.nodes fun m => (b.node m).stop

variable {f : ℕ → Option NodeID} {S : Finset NodeID} {k : Extent → ℕ}

/-- A table of a set of which one thing's key is changed. -/
theorem represents_update (h : Represents f S fun m => k (a.node m)) (hn : n ∈ S)
    (hnew : ∀ m ∈ S.erase n, k (a.node m) ≠ k I) :
    Represents (add (remove f (k (a.node n))) (k I) n) (insert n (S.erase n))
      fun m => k (update a.node n I m) := by
  have hother : ∀ m ∈ S.erase n, k (update a.node n I m) = k (a.node m) :=
    fun m hm => congrArg k (update_of_ne (ne_of_mem_erase hm) _ _)
  have hself : k (update a.node n I n) = k I := congrArg k (update_self ..)
  have hadd := ((h.remove hn).congr hother).add (notMem_erase n S) fun m hm => by
    rw [hother m hm, hself]
    exact hnew m hm
  simp only [hself] at hadd
  exact hadd

/-- A table of a set of which one thing is changed, but not its key. -/
theorem represents_update_of_eq
    (h : Represents f S fun m => k (a.node m)) (hn : n ∈ S) (hkey : k I = k (a.node n)) :
    Represents f (insert n (S.erase n)) fun m => k (update a.node n I m) := by
  rw [insert_erase hn]
  refine h.congr fun m _ => ?_
  by_cases hm : m = n
  · rw [hm, update_self, hkey]
  · rw [update_of_ne hm]

namespace Updated

theorem freeSpace (h : Updated a n I b) : b.freeSpace = I ::ₘ a.otherSpace n :=
  MetaAllocator.freeSpace_update b h.nodes h.node

/-- The invariant holds again when the new interval is nonempty and has no free neighbour. -/
theorem kept (h : Updated a n I b) (hkept : Kept a) (hn : n ∈ a.freeSpaceSizeMap.nodes)
    (hpos : 0 < I.size)
    (hleft : ∀ m ∈ a.freeSpaceSizeMap.nodes.erase n, (a.node m).stop ≠ I.start)
    (hright : ∀ m ∈ a.freeSpaceSizeMap.nodes.erase n, I.stop ≠ (a.node m).start) : Kept b := by
  have hself : b.node n = I := by rw [h.node, update_self]
  have hother : ∀ m ∈ a.freeSpaceSizeMap.nodes.erase n, b.node m = a.node m := by
    intro m hm
    rw [h.node, update_of_ne (ne_of_mem_erase hm)]
  refine ⟨⟨?_, h.starts, h.ends, ?_⟩, ?_, ?_⟩ <;> intro m hm <;> rw [h.nodes] at hm
  · rw [h.key]
    rcases mem_insert.mp hm with rfl | hm
    · rw [update_self, hself]
    · rw [update_of_ne (ne_of_mem_erase hm), hother m hm]
      exact hkept.indexed.sizes m (mem_of_mem_erase hm)
  · rw [h.nextNode]
    rcases mem_insert.mp hm with rfl | hm
    · exact hkept.indexed.allocated m hn
    · exact hkept.indexed.allocated m (mem_of_mem_erase hm)
  · rcases mem_insert.mp hm with rfl | hm
    · rw [hself]
      exact hpos
    · rw [hother m hm]
      exact hkept.separate.pos m (mem_of_mem_erase hm)
  · intro m' hm'
    rw [h.nodes] at hm'
    rcases mem_insert.mp hm with rfl | hm <;> rcases mem_insert.mp hm' with rfl | hm'
    · rw [hself]
      unfold Extent.stop
      omega
    · rw [hself, hother m' hm']
      exact hright m' hm'
    · rw [hself, hother m hm]
      exact hleft m hm
    · rw [hother m hm, hother m' hm']
      exact hkept.separate.apart m (mem_of_mem_erase hm) m' (mem_of_mem_erase hm')

end Updated

end Update

/-! ## One node -/

namespace MetaAllocator

variable {a : MetaAllocator} {n : NodeID} {I : Extent}

/-- A node is taken out of the tree and of the hash maps. -/
def removeNode (a : MetaAllocator) (n : NodeID) : MetaAllocator :=
  a |>.removeSize n |>.removeStart (a.node n).start |>.removeEnd (a.node n).stop

/-- A node gets a new start. -/
def moveStart (a : MetaAllocator) (n : NodeID) (I : Extent) : MetaAllocator :=
  a |>.removeSize n |>.removeStart (a.node n).start |>.setNode n I |>.insertSize n
    |>.addStart I.start n

/-- A node gets a new end. -/
def moveEnd (a : MetaAllocator) (n : NodeID) (I : Extent) : MetaAllocator :=
  a |>.removeSize n |>.removeEnd (a.node n).stop |>.setNode n I |>.insertSize n |>.addEnd I.stop n

section

variable (h : Kept a) (hn : n ∈ a.freeSpaceSizeMap.nodes)
include h hn

theorem kept_removeNode : Kept (a.removeNode n) where
  indexed :=
    { sizes := fun m hm => h.indexed.sizes m (mem_of_mem_erase hm)
      starts := h.indexed.starts.remove hn
      ends := h.indexed.ends.remove hn
      allocated := fun m hm => h.indexed.allocated m (mem_of_mem_erase hm) }
  separate :=
    { pos := fun m hm => h.separate.pos m (mem_of_mem_erase hm)
      apart := fun m hm m' hm' =>
        h.separate.apart m (mem_of_mem_erase hm) m' (mem_of_mem_erase hm') }

theorem updated_moveStart (hstop : I.stop = (a.node n).stop)
    (hnew : ∀ m ∈ a.freeSpaceSizeMap.nodes.erase n, (a.node m).start ≠ I.start) :
    Updated a n I (a.moveStart n I) :=
  ⟨rfl, rfl, congrArg (update _ n) (congrArg Extent.size (update_self ..)), rfl,
    represents_update (a := a) (k := Extent.start) h.indexed.starts hn hnew,
    represents_update_of_eq (a := a) (k := Extent.stop) h.indexed.ends hn hstop⟩

theorem updated_moveEnd (hstart : I.start = (a.node n).start)
    (hnew : ∀ m ∈ a.freeSpaceSizeMap.nodes.erase n, (a.node m).stop ≠ I.stop) :
    Updated a n I (a.moveEnd n I) :=
  ⟨rfl, rfl, congrArg (update _ n) (congrArg Extent.size (update_self ..)), rfl,
    represents_update_of_eq (a := a) (k := Extent.start) h.indexed.starts hn hstart,
    represents_update (a := a) (k := Extent.stop) h.indexed.ends hn hnew⟩

/-- A node that moves its start keeps the invariant when the new start is not and does not touch that
of another free interval. -/
theorem kept_moveStart (hstop : I.stop = (a.node n).stop) (hpos : 0 < I.size)
    (hnew : ∀ m ∈ a.freeSpaceSizeMap.nodes.erase n,
      (a.node m).start ≠ I.start ∧ (a.node m).stop ≠ I.start) :
    Kept (a.moveStart n I) ∧ (a.moveStart n I).freeSpace = I ::ₘ a.otherSpace n := by
  have hupdated := updated_moveStart h hn hstop fun m hm => (hnew m hm).1
  refine ⟨hupdated.kept h hn hpos (fun m hm => (hnew m hm).2) fun m hm => ?_, hupdated.freeSpace⟩
  rw [hstop]
  exact h.separate.apart n hn m (mem_of_mem_erase hm)

/-- A node that moves its end keeps the invariant when the new end is not and does not touch that of
another free interval. -/
theorem kept_moveEnd (hstart : I.start = (a.node n).start) (hpos : 0 < I.size)
    (hnew : ∀ m ∈ a.freeSpaceSizeMap.nodes.erase n,
      (a.node m).stop ≠ I.stop ∧ I.stop ≠ (a.node m).start) :
    Kept (a.moveEnd n I) ∧ (a.moveEnd n I).freeSpace = I ::ₘ a.otherSpace n := by
  have hupdated := updated_moveEnd h hn hstart fun m hm => (hnew m hm).1
  refine ⟨hupdated.kept h hn hpos (fun m hm => ?_) fun m hm => (hnew m hm).2, hupdated.freeSpace⟩
  rw [hstart]
  exact h.separate.apart m (mem_of_mem_erase hm) n hn

end

/-! ## Taking free space -/

section FindAndRemove

variable {s : Sizes} {sizeInBytes : ℕ}

/-- The other free intervals do not start or end inside the one of a node. -/
theorem not_contains_other (hdisjoint : ∀ x, coverage a.freeSpace x ≤ 1) (h : Kept a)
    (hn : n ∈ a.freeSpaceSizeMap.nodes) (hm : m ∈ a.freeSpaceSizeMap.nodes.erase n) :
    ¬ (a.node n).Contains (a.node m).start ∧ ¬ (a.node n).Contains ((a.node m).stop - 1) := by
  rw [freeSpace_eq_cons hn] at hdisjoint
  have hmem : a.node m ∈ a.otherSpace n := Multiset.mem_map_of_mem a.node hm
  have hpos := h.separate.pos m (mem_of_mem_erase hm)
  exact ⟨not_contains_start hdisjoint hmem hpos, not_contains_stop hdisjoint hmem hpos⟩

/-- What is taken is cut off the interval of the node that was found. -/
theorem findAndRemoveFreeSpace_some (h : Kept a) (hdisjoint : ∀ x, coverage a.freeSpace x ≤ 1)
    (hpos : 0 < sizeInBytes)
    (hfound : a.freeSpaceSizeMap.FindsLeastGreaterThanOrEqual sizeInBytes (some n)) :
    let r := a.findAndRemoveFreeSpace s (some n) sizeInBytes
    Kept r.2 ∧ Recuts (⟨r.1, sizeInBytes⟩ ::ₘ r.2.freeSpace) a.freeSpace
      ∧ (a.node n).start ≤ r.1 := by
  obtain ⟨hn, hle, -⟩ := hfound
  rw [h.indexed.sizes n hn] at hle
  have hstop : (a.node n).stop = (a.node n).start + (a.node n).size := rfl
  simp only [findAndRemoveFreeSpace]
  split
  · -- a perfect fit
    rename_i hfit
    refine ⟨kept_removeNode h hn, ?_, le_rfl⟩
    rw [freeSpace_eq_cons hn, ← hfit]
    exact .refl _
  · rename_i hfit
    have hlt : sizeInBytes < (a.node n).size := lt_of_le_of_ne hle (Ne.symm hfit)
    -- the cut is inside the interval, where no other one starts or ends
    have hinside : ∀ x, (a.node n).start < x → x < (a.node n).stop →
        ∀ m ∈ a.freeSpaceSizeMap.nodes.erase n, (a.node m).start ≠ x ∧ (a.node m).stop ≠ x := by
      intro x hlow hhigh m hm
      have hnot := not_contains_other hdisjoint h hn hm
      unfold Extent.Contains at hnot
      omega
    split
    · -- the left part is taken
      have hmove := kept_moveStart (I := ⟨(a.node n).start + sizeInBytes,
        (a.node n).size - sizeInBytes⟩) h hn (by unfold Extent.stop; simp only; omega)
        (Nat.sub_pos_of_lt hlt)
        (hinside ((a.node n).start + sizeInBytes) (by omega) (by omega))
      refine ⟨hmove.1, ?_, le_rfl⟩
      rw [freeSpace_eq_cons hn]
      exact hmove.2 ▸ Recuts.cut hle _
    · -- the right part is taken
      have hresult : (a.node n).start + (a.node n).size - sizeInBytes
          = (a.node n).start + ((a.node n).size - sizeInBytes) := by omega
      have hmove := kept_moveEnd (I := ⟨(a.node n).start, (a.node n).size - sizeInBytes⟩) h hn rfl
        (Nat.sub_pos_of_lt hlt) fun m hm =>
          have hne := hinside ((a.node n).start + ((a.node n).size - sizeInBytes)) (by omega)
            (by omega) m hm
          ⟨hne.2, hne.1.symm⟩
      rw [hresult]
      refine ⟨hmove.1, ?_, Nat.le_add_right _ _⟩
      have hcut := Recuts.cut (Nat.sub_le (a.node n).size sizeInBytes) (a.otherSpace n)
      rw [Nat.sub_sub_self hle, Multiset.cons_swap] at hcut
      rw [freeSpace_eq_cons hn]
      exact hmove.2 ▸ hcut

end FindAndRemove

/-! ## Giving free space back -/

section AddFreeSpace

variable {start sizeInBytes : ℕ}

/-- A node for an interval that touches no free one. -/
theorem kept_newNode (h : Kept a) (hpos : 0 < sizeInBytes)
    (hnew : ∀ m ∈ a.freeSpaceSizeMap.nodes, (a.node m).start ≠ start
      ∧ (a.node m).stop ≠ start + sizeInBytes ∧ (a.node m).stop ≠ start
      ∧ start + sizeInBytes ≠ (a.node m).start) :
    let b := { a with nextNode := a.nextNode + 1 } |>.setNode a.nextNode ⟨start, sizeInBytes⟩
      |>.insertSize a.nextNode |>.addStart start a.nextNode
      |>.addEnd (start + sizeInBytes) a.nextNode
    Kept b ∧ b.freeSpace = ⟨start, sizeInBytes⟩ ::ₘ a.freeSpace := by
  intro b
  have hfresh : a.nextNode ∉ a.freeSpaceSizeMap.nodes := fun hn =>
    Nat.lt_irrefl _ (h.indexed.allocated _ hn)
  have hself : b.node a.nextNode = ⟨start, sizeInBytes⟩ := update_self ..
  have hother : ∀ m ∈ a.freeSpaceSizeMap.nodes, b.node m = a.node m := fun m hm =>
    update_of_ne (ne_of_mem_of_not_mem hm hfresh) _ _
  have hnodes : b.freeSpaceSizeMap.nodes = insert a.nextNode a.freeSpaceSizeMap.nodes := rfl
  have hstarts := (h.indexed.starts.congr (g := fun m => (b.node m).start)
    fun m hm => congrArg Extent.start (hother m hm)).add hfresh fun m hm => by
      rw [hself, hother m hm]
      exact (hnew m hm).1
  have hends := (h.indexed.ends.congr (g := fun m => (b.node m).stop)
    fun m hm => congrArg Extent.stop (hother m hm)).add hfresh fun m hm => by
      rw [hself, hother m hm]
      exact (hnew m hm).2.1
  simp only [hself] at hstarts hends
  refine ⟨⟨⟨?_, hstarts, hends, ?_⟩, ?_, ?_⟩, ?_⟩
  · intro m hm
    rcases mem_insert.mp (hnodes ▸ hm) with rfl | hm
    · exact (update_self ..).trans rfl
    · rw [hother m hm, ← h.indexed.sizes m hm]
      exact update_of_ne (ne_of_mem_of_not_mem hm hfresh) _ _
  · intro m hm
    rcases mem_insert.mp (hnodes ▸ hm) with rfl | hm
    · exact Nat.lt_succ_self _
    · exact (h.indexed.allocated m hm).trans (Nat.lt_succ_self _)
  · intro m hm
    rcases mem_insert.mp (hnodes ▸ hm) with rfl | hm
    · rw [hself]
      exact hpos
    · rw [hother m hm]
      exact h.separate.pos m hm
  · intro m hm m' hm'
    rcases mem_insert.mp (hnodes ▸ hm) with rfl | hm <;>
      rcases mem_insert.mp (hnodes ▸ hm') with rfl | hm'
    · rw [hself]
      unfold Extent.stop
      simp only
      omega
    · rw [hself, hother m' hm']
      exact (hnew m' hm').2.2.2
    · rw [hself, hother m hm]
      exact (hnew m hm).2.2.1
    · rw [hother m hm, hother m' hm']
      exact h.separate.apart m hm m' hm'
  · unfold freeSpace
    rw [hnodes, insert_val_of_notMem hfresh, Multiset.map_cons, hself]
    exact congrArg _ (Multiset.map_congr rfl hother)

/-- Free intervals do not share an end with what is disjoint from them. -/
theorem ne_of_disjoint (h : Kept a) (hpos : 0 < sizeInBytes)
    (hdisjoint : ∀ x, coverage (⟨start, sizeInBytes⟩ ::ₘ a.freeSpace) x ≤ 1) :
    ∀ m ∈ a.freeSpaceSizeMap.nodes, (a.node m).start ≠ start
      ∧ (a.node m).stop ≠ start + sizeInBytes := by
  intro m hm
  have hmem := mem_freeSpace hm
  have hstart := not_contains_start hdisjoint hmem (h.separate.pos m hm)
  have hstop := not_contains_stop hdisjoint hmem (h.separate.pos m hm)
  unfold Extent.Contains at hstart hstop
  have hend : Extent.stop ⟨start, sizeInBytes⟩ = start + sizeInBytes := rfl
  simp only [hend] at hstart hstop
  omega

/-- Both neighbours are free: the right one goes, and the left one gets its end. -/
theorem addFreeSpace_both (hl : (a.node l).stop = start)
    (hr : (a.node r).start = start + sizeInBytes) (hends : a.freeSpaceEndAddressMap start = some l)
    (hstarts : a.freeSpaceStartAddressMap (start + sizeInBytes) = some r) :
    a.addFreeSpace start sizeInBytes = (a.removeNode r).moveEnd l
      ⟨(a.node l).start, (a.node l).size + (sizeInBytes + (a.node r).size)⟩ := by
  have hrstop : (a.node r).stop = start + sizeInBytes + (a.node r).size := by
    rw [← hr]
    rfl
  have hstop : Extent.stop ⟨(a.node l).start, (a.node l).size + (sizeInBytes + (a.node r).size)⟩
      = start + sizeInBytes + (a.node r).size := by
    unfold Extent.stop at hl ⊢
    simp only
    omega
  unfold addFreeSpace moveEnd
  simp only [hends, hstarts]
  rw [hstop]
  unfold removeNode removeSize removeStart removeEnd Tree.remove
  simp only
  rw [hrstop, hr, erase_right_comm, remove_comm]

/-- What is added is joined with its free neighbours. -/
theorem kept_addFreeSpace (h : Kept a) (hpos : 0 < sizeInBytes)
    (hdisjoint : ∀ x, coverage (⟨start, sizeInBytes⟩ ::ₘ a.freeSpace) x ≤ 1) :
    Kept (a.addFreeSpace start sizeInBytes)
      ∧ Recuts (a.addFreeSpace start sizeInBytes).freeSpace
        (⟨start, sizeInBytes⟩ ::ₘ a.freeSpace) := by
  have hne := ne_of_disjoint h hpos hdisjoint
  cases hends : a.freeSpaceEndAddressMap start with
  | some l =>
    obtain ⟨hl, hlstop⟩ : l ∈ a.freeSpaceSizeMap.nodes ∧ (a.node l).stop = start :=
      (h.indexed.ends _ l).mp hends
    cases hstarts : a.freeSpaceStartAddressMap (start + sizeInBytes) with
    | some r =>
      obtain ⟨hr, hrstart⟩ : r ∈ a.freeSpaceSizeMap.nodes
          ∧ (a.node r).start = start + sizeInBytes := (h.indexed.starts _ r).mp hstarts
      have hlr : l ≠ r := by
        rintro rfl
        have hle : (a.node l).start ≤ (a.node l).stop := Nat.le_add_right _ _
        omega
      have hl' : l ∈ (a.removeNode r).freeSpaceSizeMap.nodes := mem_erase.mpr ⟨hlr, hl⟩
      have hstop : Extent.stop
          ⟨(a.node l).start, (a.node l).size + (sizeInBytes + (a.node r).size)⟩
            = (a.node r).stop := by
        unfold Extent.stop at hlstop ⊢
        simp only
        omega
      obtain ⟨hkept, hfree⟩ := kept_moveEnd (kept_removeNode h hr) hl' (I :=
        ⟨(a.node l).start, (a.node l).size + (sizeInBytes + (a.node r).size)⟩) rfl
        (Nat.add_pos_left (h.separate.pos l hl) _) fun m hm => by
          have hm := mem_of_mem_erase hm
          have hm' := mem_of_mem_erase hm
          rw [hstop]
          exact ⟨fun heq => ne_of_mem_erase hm (h.indexed.ends.key_injective hm' hr heq),
            h.separate.apart r hr m hm'⟩
      rw [addFreeSpace_both hlstop hrstart hends hstarts]
      refine ⟨hkept, ?_⟩
      have hsplit : a.otherSpace r = a.node l ::ₘ (a.removeNode r).otherSpace l :=
        freeSpace_eq_cons hl'
      rw [hfree, freeSpace_eq_cons hr, hsplit]
      have hright := (Recuts.join (I := ⟨start, sizeInBytes⟩) (J := a.node r) hrstart.symm
        ((a.removeNode r).otherSpace l)).cons (a.node l)
      have hleft := Recuts.join (I := a.node l)
        (J := Extent.join ⟨start, sizeInBytes⟩ (a.node r)) hlstop
        ((a.removeNode r).otherSpace l)
      have hboth := hleft.trans hright
      rw [Multiset.cons_swap, Multiset.cons_swap (a.node l)] at hboth
      exact hboth
    | none =>
      have hmove := kept_moveEnd (I := ⟨(a.node l).start, (a.node l).size + sizeInBytes⟩) h hl rfl
        (Nat.add_pos_left (h.separate.pos l hl) _) fun m hm => by
          have hm := mem_of_mem_erase hm
          have hstop : Extent.stop ⟨(a.node l).start, (a.node l).size + sizeInBytes⟩
              = start + sizeInBytes := by
            rw [← hlstop]
            exact (Nat.add_assoc _ _ _).symm
          rw [hstop]
          exact ⟨(hne m hm).2, (h.indexed.starts.ne_of_eq_none hstarts hm).symm⟩
      have hadd : a.addFreeSpace start sizeInBytes
          = a.moveEnd l ⟨(a.node l).start, (a.node l).size + sizeInBytes⟩ := by
        have hstop : Extent.stop ⟨(a.node l).start, (a.node l).size + sizeInBytes⟩
            = start + sizeInBytes := by
          rw [← hlstop]
          exact (Nat.add_assoc _ _ _).symm
        unfold addFreeSpace moveEnd
        simp only [hends, hstarts]
        rw [hstop]
      rw [hadd]
      refine ⟨hmove.1, ?_⟩
      rw [hmove.2, freeSpace_eq_cons hl, Multiset.cons_swap]
      exact Recuts.join (I := a.node l) (J := ⟨start, sizeInBytes⟩) hlstop _
  | none =>
    cases hstarts : a.freeSpaceStartAddressMap (start + sizeInBytes) with
    | some r =>
      obtain ⟨hr, hrstart⟩ : r ∈ a.freeSpaceSizeMap.nodes
          ∧ (a.node r).start = start + sizeInBytes := (h.indexed.starts _ r).mp hstarts
      have hmove := kept_moveStart (I := ⟨start, (a.node r).size + sizeInBytes⟩) h hr
        (by unfold Extent.stop; simp only; omega)
        (Nat.add_pos_left (h.separate.pos r hr) _) fun m hm => by
          have hm := mem_of_mem_erase hm
          exact ⟨(hne m hm).1, h.indexed.ends.ne_of_eq_none hends hm⟩
      have hadd : a.addFreeSpace start sizeInBytes
          = a.moveStart r ⟨start, (a.node r).size + sizeInBytes⟩ := by
        unfold addFreeSpace moveStart
        simp only [hends, hstarts]
        rw [hrstart]
      rw [hadd]
      refine ⟨hmove.1, ?_⟩
      rw [hmove.2, freeSpace_eq_cons hr, Nat.add_comm (a.node r).size]
      exact Recuts.join (I := ⟨start, sizeInBytes⟩) (J := a.node r) hrstart.symm _
    | none =>
      have hnew := kept_newNode h hpos fun m hm =>
        ⟨(hne m hm).1, (hne m hm).2, h.indexed.ends.ne_of_eq_none hends hm,
          (h.indexed.starts.ne_of_eq_none hstarts hm).symm⟩
      unfold addFreeSpace
      simp only [hends, hstarts]
      refine ⟨hnew.1, ?_⟩
      rw [hnew.2]
      exact .refl _

end AddFreeSpace

end MetaAllocator

end WTF
end WebKit
