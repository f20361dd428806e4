import WebKit.WTF.MetaAllocatorRuns

/-!
# Pages in use

The allocator counts for each page the live handles that have a byte in it, and commits the pages with
a count.  `shrink` leaves the first page alone unless it begins with the handle, which is right as
long as something is left of the handle.

* `Counted`: the map has the counts of a function, and so many pages are committed.
* `occupants`: the live handles with a byte in a page.
* `PagesRight`: the map is right, and a page is not in it exactly when no byte of it is in use.
* `pagesRight_of_reachable`: this holds in every run that shrinks no handle to nothing from inside of
  a page.
-/

namespace WebKit

open List Function Nat
namespace WTF

open Tiling

variable {s : Sizes}

/-! ## The pages of an interval -/

/-- The interval has a byte in the page. -/
def Meets (s : Sizes) (I : Extent) (page : ℕ) : Prop := ∃ x, I.Contains x ∧ x / s.pageSize = page

theorem meets_iff : Meets s I page ↔
      0 < I.size ∧ I.start / s.pageSize ≤ page ∧ page ≤ (I.stop - 1) / s.pageSize := by
  have hpos := pageSize_pos s
  constructor
  · rintro ⟨x, ⟨hstart, hstop⟩, rfl⟩
    refine ⟨?_, Nat.div_le_div_right hstart, Nat.div_le_div_right (by omega)⟩
    rw [Extent.stop] at hstop
    omega
  · rintro ⟨hsize, hfirst, hlast⟩
    have hstop : I.stop = I.start + I.size := rfl
    -- the first byte of the page, or of the interval if that is later
    refine ⟨max I.start (page * s.pageSize), ⟨le_max_left _ _, ?_⟩, ?_⟩
    · have hle : page * s.pageSize ≤ I.stop - 1 := (le_div_iff_mul_le hpos).mp hlast
      omega
    · rcases le_total I.start (page * s.pageSize) with hle | hle
      · rw [max_eq_right hle, Nat.mul_div_cancel _ hpos]
      · rw [max_eq_left hle]
        exact le_antisymm hfirst ((le_div_iff_mul_le hpos).mpr hle)

instance (s : Sizes) (I : Extent) (page : ℕ) : Decidable (Meets s I page) :=
  decidable_of_iff _ meets_iff.symm

/-- The number of live handles with a byte in the page. -/
def occupants (s : Sizes) (handles : Multiset MetaAllocatorHandle) (page : ℕ) : ℕ :=
  handles.countP (Meets s · page)

theorem occupants_cons (h : MetaAllocatorHandle) (handles : Multiset MetaAllocatorHandle)
    (page : ℕ) : occupants s (h ::ₘ handles) page =
      occupants s handles page + if Meets s h page then 1 else 0 :=
  Multiset.countP_cons _ _ _

namespace MetaAllocator

theorem nodup_pages (s : Sizes) (address sizeInBytes : ℕ) : (pages s address sizeInBytes).Nodup :=
  nodup_range'

/-- The pages of an interval that does not wrap around. -/
theorem mem_pages (hpos : 0 < sizeInBytes) (hlt : address + sizeInBytes ≤ sizeLimit) :
    page ∈ pages s address sizeInBytes ↔ Meets s ⟨address, sizeInBytes⟩ page := by
  rw [meets_iff, pages, mem_range'_1, mod_eq_of_lt (by omega), shiftRight_eq_div_pow,
    shiftRight_eq_div_pow, ← pageSize_eq]
  change _ ↔ 0 < sizeInBytes ∧ address / s.pageSize ≤ page ∧
    page ≤ (address + sizeInBytes - 1) / s.pageSize
  omega

/-! ## The counts -/

/-- The map has the counts that are not 0, and the pages with a count are committed. -/
structure Counted (s : Sizes) (a : MetaAllocator) (count : ℕ → ℕ) : Prop where
  occupancy : ∀ page, a.pageOccupancyMap page = if count page = 0 then none else some (count page)
  committed : ∃ present : Finset ℕ, (∀ page, page ∈ present ↔ count page ≠ 0) ∧
    a.bytesCommitted = s.pageSize * present.card

variable {a b : MetaAllocator} {count : ℕ → ℕ}

variable (h : Counted s a count)

include h

theorem Counted.congr (hmap : b.pageOccupancyMap = a.pageOccupancyMap)
    (hcommitted : b.bytesCommitted = a.bytesCommitted) : Counted s b count where
  occupancy := by
    rw [hmap]
    exact h.occupancy
  committed := by
    rw [hcommitted]
    exact h.committed

theorem Counted.congr_count {count' : ℕ → ℕ}
    (heq : ∀ page, count page = count' page) : Counted s a count' := by
  rwa [← funext heq]

theorem Counted.incrementPage (page : ℕ) :
    Counted s (incrementPage s a page) (update count page (count page + 1)) := by
  obtain ⟨present, hpresent, hcommitted⟩ := h.committed
  have hmap : ∀ p, (MetaAllocator.incrementPage s a page).pageOccupancyMap p =
      if p = page then some (count page + 1) else a.pageOccupancyMap p := by
    intro p
    rw [MetaAllocator.incrementPage, h.occupancy page]
    by_cases hcount : count page = 0
    · rw [hcount]
      exact update_apply _ _ _ _
    · rw [if_neg hcount]
      exact update_apply _ _ _ _
  constructor
  · intro p
    rw [hmap, update_apply]
    by_cases hp : p = page
    · rw [if_pos hp, if_pos hp, if_neg (succ_ne_zero _)]
    · rw [if_neg hp, if_neg hp, h.occupancy]
  · refine ⟨insert page present, fun p => ?_, ?_⟩
    · rw [Finset.mem_insert, hpresent, update_apply]
      by_cases hp : p = page
      · rw [if_pos hp]
        exact iff_of_true (Or.inl hp) (succ_ne_zero _)
      · rw [if_neg hp]
        exact or_iff_right hp
    · rw [MetaAllocator.incrementPage, h.occupancy page]
      by_cases hcount : count page = 0
      · have hnot : page ∉ present := fun hin => (hpresent page).mp hin hcount
        rw [if_pos hcount, Finset.card_insert_of_notMem hnot, mul_succ, ← hcommitted]
      · rw [if_neg hcount, Finset.insert_eq_of_mem ((hpresent page).mpr hcount), ← hcommitted]

theorem Counted.decrementPage {page : ℕ} (hpage : count page ≠ 0) :
    Counted s (decrementPage s a page) (update count page (count page - 1)) := by
  obtain ⟨present, hpresent, hcommitted⟩ := h.committed
  have hmem : page ∈ present := (hpresent page).mpr hpage
  have hfound : a.pageOccupancyMap page = some (count page) := by
    rw [h.occupancy, if_neg hpage]
  by_cases hlast : count page - 1 = 0
  · have heq : MetaAllocator.decrementPage s a page =
        { a with
          pageOccupancyMap := update a.pageOccupancyMap page none
          bytesCommitted := a.bytesCommitted - s.pageSize } := by
      rw [MetaAllocator.decrementPage, hfound]
      exact if_pos hlast
    rw [heq, hlast]
    constructor
    · intro p
      dsimp only
      rw [update_apply, update_apply]
      by_cases hp : p = page
      · rw [if_pos hp, if_pos hp, if_pos rfl]
      · rw [if_neg hp, if_neg hp, h.occupancy]
    · refine ⟨present.erase page, fun p => ?_, ?_⟩
      · rw [Finset.mem_erase, hpresent, update_apply]
        by_cases hp : p = page
        · rw [if_pos hp]
          exact iff_of_false (fun hin => hin.1 hp) (not_not.mpr rfl)
        · rw [if_neg hp]
          exact and_iff_right hp
      · have hcard := Finset.card_erase_add_one hmem
        rw [hcommitted, ← hcard, Nat.mul_succ, Nat.add_sub_cancel]
  · have heq : MetaAllocator.decrementPage s a page =
        { a with
          pageOccupancyMap := update a.pageOccupancyMap page (some (count page - 1)) } := by
      rw [MetaAllocator.decrementPage, hfound]
      exact if_neg hlast
    rw [heq]
    constructor
    · intro p
      dsimp only
      rw [update_apply, update_apply]
      by_cases hp : p = page
      · rw [if_pos hp, if_pos hp, if_neg hlast]
      · rw [if_neg hp, if_neg hp, h.occupancy]
    · refine ⟨present, fun p => ?_, hcommitted⟩
      rw [hpresent, update_apply]
      by_cases hp : p = page
      · rw [if_pos hp, hp]
        exact iff_of_true hpage hlast
      · rw [if_neg hp]

/-- The loop that counts pages up. -/
theorem Counted.increments {pages : List ℕ} (hnodup : pages.Nodup) :
    Counted s (pages.foldl (MetaAllocator.incrementPage s) a) fun p =>
      count p + if p ∈ pages then 1 else 0 := by
  induction pages generalizing a count with
  | nil => exact h.congr_count fun p => by rw [if_neg not_mem_nil, add_zero]
  | cons page pages ih =>
    rw [nodup_cons] at hnodup
    refine (ih (h.incrementPage page) hnodup.2).congr_count fun p => ?_
    rw [update_apply]
    by_cases hp : p = page
    · rw [if_pos hp, hp, if_neg hnodup.1, if_pos mem_cons_self]
    · rw [if_neg hp]
      refine congrArg _ (if_congr ?_ rfl rfl)
      rw [mem_cons, or_iff_right hp]

/-- The loop that counts pages down. -/
theorem Counted.decrements {pages : List ℕ} (hnodup : pages.Nodup)
    (hpages : ∀ p ∈ pages, count p ≠ 0) :
    Counted s (pages.foldl (MetaAllocator.decrementPage s) a) fun p =>
      count p - if p ∈ pages then 1 else 0 := by
  induction pages generalizing a count with
  | nil => exact h.congr_count fun p => by rw [if_neg not_mem_nil, Nat.sub_zero]
  | cons page pages ih =>
    rw [nodup_cons] at hnodup
    have hrest : ∀ p ∈ pages, update count page (count page - 1) p ≠ 0 := by
      intro p hp
      have hne : p ≠ page := by
        rintro rfl
        exact hnodup.1 hp
      rw [update_of_ne hne]
      exact hpages p (mem_cons_of_mem page hp)
    refine (ih (h.decrementPage (hpages page mem_cons_self)) hnodup.2 hrest).congr_count
      fun p => ?_
    rw [update_apply]
    by_cases hp : p = page
    · rw [if_pos hp, hp, if_neg hnodup.1, if_pos mem_cons_self, Nat.sub_zero]
    · rw [if_neg hp]
      refine congrArg _ (if_congr ?_ rfl rfl)
      rw [mem_cons, or_iff_right hp]

omit h

/-- The pages that the loop of `decrementPageOccupancy` passes to `notifyPageIsFree`. -/
def freedPages (s : Sizes) : MetaAllocator → List ℕ → List ℕ
  | _, [] => []
  | a, page :: pages =>
    (if a.pageOccupancyMap page = some 1 then [page] else [])
      ++ freedPages s (MetaAllocator.decrementPage s a page) pages

section

variable (h : Counted s a count) {pages : List ℕ} (hnodup : pages.Nodup)
  (hpages : ∀ p ∈ pages, count p ≠ 0)
include h hnodup hpages

theorem Counted.freedPages_eq : freedPages s a pages = pages.filter fun p => count p = 1 := by
  induction pages generalizing a count with
  | nil => rfl
  | cons page pages ih =>
    rw [nodup_cons] at hnodup
    have hother : ∀ p ∈ pages, update count page (count page - 1) p = count p := by
      intro p hp
      refine update_of_ne ?_ _ _
      rintro rfl
      exact hnodup.1 hp
    have hrest : ∀ p ∈ pages, update count page (count page - 1) p ≠ 0 := by
      intro p hp
      rw [hother p hp]
      exact hpages p (mem_cons_of_mem page hp)
    have hpage := hpages page mem_cons_self
    have hfilter : (pages.filter fun p => update count page (count page - 1) p = 1)
        = pages.filter fun p => count p = 1 := by
      refine filter_congr fun p hp => ?_
      rw [hother p hp]
    rw [freedPages, ih (h.decrementPage hpage) hnodup.2 hrest, hfilter, h.occupancy page,
      if_neg hpage, filter_cons]
    by_cases hone : count page = 1
    · rw [if_pos (congrArg some hone), if_pos (decide_eq_true hone)]
      rfl
    · rw [if_neg fun heq => hone (Option.some.inj heq), if_neg fun heq => hone (of_decide_eq_true heq)]
      rfl

/-- The pages reported are those whose count goes down to 0. -/
theorem Counted.mem_freedPages (page : ℕ) : page ∈ freedPages s a pages ↔
      count page ≠ 0 ∧ (count page - if page ∈ pages then 1 else 0) = 0 := by
  rw [h.freedPages_eq hnodup hpages, mem_filter, decide_eq_true_eq]
  by_cases hpage : page ∈ pages
  · rw [if_pos hpage, and_iff_right hpage]
    omega
  · rw [if_neg hpage]
    exact iff_of_false (fun hin => hpage hin.1) (fun hin => hin.1 hin.2)

end

/-! ## What leaves the counts alone -/

/-- The allocators have the same counts. -/
def SamePages (a b : MetaAllocator) : Prop :=
  b.pageOccupancyMap = a.pageOccupancyMap ∧ b.bytesCommitted = a.bytesCommitted

theorem samePages_addFreeSpace (a : MetaAllocator) (start sizeInBytes : ℕ) :
    SamePages a (a.addFreeSpace start sizeInBytes) := by
  unfold addFreeSpace
  dsimp only
  split <;> exact ⟨rfl, rfl⟩

theorem samePages_addFreeSpaceFromReleasedHandle (a : MetaAllocator) (start sizeInBytes : ℕ) :
    SamePages a (a.addFreeSpaceFromReleasedHandle start sizeInBytes) :=
  samePages_addFreeSpace _ start sizeInBytes

theorem samePages_findAndRemoveFreeSpace (s : Sizes) (a : MetaAllocator) (found : Option NodeID)
    (sizeInBytes : ℕ) : SamePages a (a.findAndRemoveFreeSpace s found sizeInBytes).2 := by
  unfold findAndRemoveFreeSpace
  split
  · exact ⟨rfl, rfl⟩
  · dsimp only
    split
    · exact ⟨rfl, rfl⟩
    · split <;> exact ⟨rfl, rfl⟩

theorem Counted.samePages (h : Counted s a count) (hsame : SamePages a b) : Counted s b count :=
  h.congr hsame.1 hsame.2

theorem Counted.createHandle (h : Counted s a count) (start sizeInBytes : ℕ) :
    Counted s (a.createHandle s start sizeInBytes).2 fun p =>
      count p + if p ∈ pages s start sizeInBytes then 1 else 0 :=
  (h.increments (nodup_pages s start sizeInBytes)).congr rfl rfl

end MetaAllocator

/-! ## Calls -/

open MetaAllocator

/-- The counts are those of the live handles. -/
def Occupied (s : Sizes) (σ : System) : Prop :=
  Counted s σ.allocator (occupants s σ.handles)

section Calls

variable {σ σ' : System}
variable {handle : MetaAllocatorHandle} {sizeInBytes : ℕ}

/-- A handle that is alive ends with a region. -/
theorem Accounted.le_addressLimit (h : Accounted s σ) (hh : handle ∈ σ.handles)
    (hpos : 0 < handle.size) : handle.start + handle.size ≤ addressLimit := by
  obtain ⟨J, hJ, hx⟩ := h.tiles.exists_contains (Multiset.mem_add.mpr (.inl hh))
    (Extent.contains_stop_sub_one _ hpos)
  have hle := (h.regions J hJ).2
  have hlt := hx.2
  have hstop : handle.stop = handle.start + handle.size := rfl
  omega

/-- The system with another handle, whose pages were counted. -/
theorem Occupied.cons {a : MetaAllocator} {handles : Multiset MetaAllocatorHandle}
    {start size : ℕ} (h : Counted s a (occupants s handles)) (hpos : 0 < size)
    (hle : start + size ≤ addressLimit) :
    Counted s (a.createHandle s start size).2 (occupants s (⟨start, size⟩ ::ₘ handles)) := by
  have hlt : start + size ≤ sizeLimit := hle.trans (by decide)
  refine (h.createHandle start size).congr_count fun p => ?_
  rw [occupants_cons]
  exact congrArg _ (if_congr (mem_pages hpos hlt) rfl rfl)

theorem Occupied.allocate (h : Occupied s σ) (haccounted : Accounted s σ')
    (hstep : step s σ (.allocate sizeInBytes found newSpace) = some σ') : Occupied s σ' := by
  have hfind := fun size => samePages_findAndRemoveFreeSpace s σ.allocator found size
  unfold step MetaAllocator.allocate at hstep
  by_cases hzero : sizeInBytes = 0
  · simp only [if_pos hzero, Option.some.injEq] at hstep
    exact hstep ▸ h
  cases hround : s.roundUp sizeInBytes with
  | none => simp only [if_neg hzero, hround, reduceCtorEq] at hstep
  | some size =>
    have hpos : 0 < size := (pos_of_ne_zero hzero).trans_le (le_roundUp hround)
    simp only [if_neg hzero, hround] at hstep
    by_cases hstart : (σ.allocator.findAndRemoveFreeSpace s found size).1 ≠ 0
    · simp only [if_pos hstart, Option.some.injEq] at hstep
      subst hstep
      exact Occupied.cons (h.samePages (hfind size)) hpos
        (haccounted.le_addressLimit (Multiset.mem_cons_self _ _) hpos)
    · simp only [if_neg hstart] at hstep
      cases newSpace with
      | none =>
        simp only [Option.some.injEq] at hstep
        subst hstep
        exact h.samePages (hfind size)
      | some space =>
        obtain ⟨start, numberOfPages⟩ := space
        simp only [Option.some.injEq] at hstep
        subst hstep
        refine Occupied.cons ?_ hpos (haccounted.le_addressLimit (Multiset.mem_cons_self _ _) hpos)
        have hreserved := (h.samePages (hfind size)).congr (b := { (σ.allocator.findAndRemoveFreeSpace
          s found size).2 with bytesReserved := (σ.allocator.findAndRemoveFreeSpace s found
            size).2.bytesReserved + numberOfPages <<< s.logPageSize }) rfl rfl
        split
        · exact hreserved.samePages (samePages_addFreeSpace _ _ _)
        · exact hreserved

/-- What is left of the live handles when one goes. -/
theorem occupants_erase (hh : handle ∈ σ.handles) (page : ℕ) : occupants s σ.handles page =
      occupants s (σ.handles.erase handle) page + if Meets s handle page then 1 else 0 := by
  rw [← occupants_cons, Multiset.cons_erase hh]

/-! ### The pages that become free -/

theorem ceil_eq (hpos : 0 < x) :
    (x + s.pageSize - 1) / s.pageSize = (x - 1) / s.pageSize + 1 := by
  rw [← add_div_right _ (pageSize_pos s)]
  exact congrArg (· / _) (by omega)

/-- Pages from the first that is completely free are not needed for what is left. -/
theorem lt_of_meets {start size page : ℕ} (h : Meets s ⟨start, size⟩ page) :
    page < (start + size + s.pageSize - 1) / s.pageSize := by
  obtain ⟨hsize, -, hlast⟩ := meets_iff.mp h
  dsimp only at hsize
  rw [ceil_eq (by omega)]
  exact lt_succ_of_le hlast

/-- The pages of a handle are those of what is left and those that are completely free. -/
theorem meets_shrink {start size total page : ℕ} (hlt : size < total)
    (haligned : size = 0 → s.pageSize ∣ start) :
    Meets s ⟨start, total⟩ page ↔ Meets s ⟨start, size⟩ page ∨
      (start + size + s.pageSize - 1) / s.pageSize ≤ page ∧
        page ≤ (start + total - 1) / s.pageSize := by
  rw [meets_iff, meets_iff]
  change 0 < total ∧ start / s.pageSize ≤ page ∧ page ≤ (start + total - 1) / s.pageSize ↔
    (0 < size ∧ start / s.pageSize ≤ page ∧ page ≤ (start + size - 1) / s.pageSize) ∨ _
  rcases Nat.eq_zero_or_pos size with rfl | hsize
  · -- the first page begins with the handle
    obtain ⟨k, rfl⟩ := haligned rfl
    have hpos := pageSize_pos s
    have hceil : (s.pageSize * k + 0 + s.pageSize - 1) / s.pageSize = k := by
      rw [Nat.add_zero, Nat.add_sub_assoc hpos, Nat.mul_add_div hpos,
        Nat.div_eq_of_lt (Nat.sub_lt hpos Nat.one_pos), Nat.add_zero]
    rw [Nat.mul_div_cancel_left _ hpos]
    omega
  · have hfirst : start / s.pageSize ≤ (start + size - 1) / s.pageSize :=
      Nat.div_le_div_right (by omega)
    have hlast : (start + size - 1) / s.pageSize ≤ (start + total - 1) / s.pageSize :=
      Nat.div_le_div_right (by omega)
    rw [ceil_eq (by omega)]
    omega

/-- The pages that `shrink` counts down. -/
theorem mem_shrunkPages {start size total page : ℕ} (hlt : size < total)
    (hle : start + total ≤ addressLimit)
    (hfree : (start + size + s.pageSize - 1) / s.pageSize * s.pageSize < start + total) :
    page ∈ pages s ((start + size + s.pageSize - 1) / s.pageSize * s.pageSize)
        (total - size - ((start + size + s.pageSize - 1) / s.pageSize * s.pageSize
          - (start + size))) ↔
      (start + size + s.pageSize - 1) / s.pageSize ≤ page ∧
        page ≤ (start + total - 1) / s.pageSize := by
  have hpos := pageSize_pos s
  have hceil := Alignment.le_div_mul hpos (start + size)
  have hlimit : start + total ≤ sizeLimit := hle.trans (by decide)
  have hdiv := Nat.mul_div_cancel ((start + size + s.pageSize - 1) / s.pageSize) hpos
  generalize (start + size + s.pageSize - 1) / s.pageSize * s.pageSize = first at *
  have hrest : total - size - (first - (start + size)) = start + total - first := by omega
  have hstop : first + (start + total - first) = start + total := add_sub_of_le hfree.le
  have hpositive : 0 < start + total - first := Nat.sub_pos_of_lt hfree
  rw [hrest, mem_pages hpositive (hstop.trans_le hlimit), meets_iff, ← hdiv]
  change 0 < start + total - first ∧ first / s.pageSize ≤ page ∧
    page ≤ (first + (start + total - first) - 1) / s.pageSize ↔ _
  rw [hstop]
  exact and_iff_right hpositive

/-- The first page that is completely free, as `shrink` computes it. -/
theorem firstCompletelyFreePage_eq {freeStart : ℕ} (hle : freeStart ≤ addressLimit) :
    (BitVec.ofNat 64 (freeStart + s.pageSize - 1) &&& ~~~(BitVec.ofNat 64 (s.pageSize - 1))).toNat
      = (freeStart + s.pageSize - 1) / s.pageSize * s.pageSize := by
  have hpage : s.pageSize < 2 ^ 32 := by
    rw [pageSize_eq]
    exact Nat.pow_lt_pow_right (by decide) s.logPageSize_lt
  have hlt : freeStart + s.pageSize - 1 < 2 ^ 64 := by
    unfold addressLimit at hle
    omega
  rw [pageSize_eq] at hlt ⊢
  exact Alignment.toNat_and_not_mask hlt

/-! ### One call -/

/-- The pages that a call passes to `notifyPageIsFree`. -/
def reportedFree (s : Sizes) (σ : System) : Event → List ℕ
  | .allocate _ _ _ => []
  | .shrink handle newSizeInBytes =>
    match s.roundUp newSizeInBytes with
    | none => []
    | some newSizeInBytes =>
      if newSizeInBytes = handle.size then []
      else
        let freeStart := handle.start + newSizeInBytes
        let freeSize := handle.size - newSizeInBytes
        let freeEnd := freeStart + freeSize
        let firstCompletelyFreePage := (BitVec.ofNat 64 (freeStart + s.pageSize - 1)
          &&& ~~~(BitVec.ofNat 64 (s.pageSize - 1))).toNat
        if firstCompletelyFreePage < freeEnd then
          freedPages s σ.allocator
            (pages s firstCompletelyFreePage (freeSize - (firstCompletelyFreePage - freeStart)))
        else []
  | .release handle =>
    if handle.size = 0 then []
    else freedPages s σ.allocator (pages s handle.start handle.size)
  | .addFreshFreeSpace _ _ => []

/-- The pages reported are those that were in use and are not any more. -/
def ReportsFreed (s : Sizes) (σ σ' : System) (reported : List ℕ) : Prop :=
  ∀ page, page ∈ reported ↔ occupants s σ.handles page ≠ 0 ∧ occupants s σ'.handles page = 0

theorem reportsFreed_nil (h : ∀ page, occupants s σ.handles page ≠ 0 →
    occupants s σ'.handles page ≠ 0) : ReportsFreed s σ σ' [] :=
  fun page => iff_of_false not_mem_nil fun hpage => h page hpage.1 hpage.2

variable (h : Occupied s σ)

include h

/-- Counting down the pages `freed`, of which each handle but the new one has what it had. -/
theorem Occupied.decrements {handles : Multiset MetaAllocatorHandle}
    {freed : List ℕ} (hnodup : freed.Nodup)
    (hcount : ∀ page, occupants s σ.handles page
      = occupants s handles page + if page ∈ freed then 1 else 0) :
    Counted s (freed.foldl (decrementPage s) σ.allocator) (occupants s handles)
      ∧ ∀ page, page ∈ freedPages s σ.allocator freed ↔
        occupants s σ.handles page ≠ 0 ∧ occupants s handles page = 0 := by
  have hne : ∀ page ∈ freed, occupants s σ.handles page ≠ 0 := by
    intro page hpage
    rw [hcount, if_pos hpage]
    exact succ_ne_zero _
  have hrest : ∀ page, (occupants s σ.handles page - if page ∈ freed then 1 else 0)
      = occupants s handles page := by
    intro page
    rw [hcount, Nat.add_sub_cancel]
  refine ⟨(Counted.decrements h hnodup hne).congr_count hrest, fun page => ?_⟩
  rw [Counted.mem_freedPages h hnodup hne, hrest]

theorem Occupied.release (haccounted : Accounted s σ)
    (he : Enabled s σ (.release handle)) (hstep : step s σ (.release handle) = some σ') :
    Occupied s σ' ∧ ReportsFreed s σ σ' (reportedFree s σ (.release handle)) := by
  obtain rfl := Option.some.inj hstep
  unfold MetaAllocator.release reportedFree
  by_cases hzero : handle.size = 0
  · -- an empty handle has no page
    have hcount : ∀ page, occupants s σ.handles page
        = occupants s (σ.handles.erase handle) page := by
      intro page
      rw [occupants_erase he, if_neg, add_zero]
      exact fun hmeets => (meets_iff.mp hmeets).1.ne' hzero
    simp only [if_pos hzero]
    refine ⟨Counted.congr_count h hcount, reportsFreed_nil fun page hpage => ?_⟩
    rwa [← hcount page]
  · have hpos := pos_of_ne_zero hzero
    have hlimit : handle.start + handle.size ≤ sizeLimit :=
      (haccounted.le_addressLimit he hpos).trans (by decide)
    have hcount : ∀ page, occupants s σ.handles page = occupants s (σ.handles.erase handle) page
        + if page ∈ pages s handle.start handle.size then 1 else 0 := by
      intro page
      rw [occupants_erase he]
      exact congrArg _ (if_congr (mem_pages hpos hlimit).symm rfl rfl)
    obtain ⟨hcounted, hreports⟩ := h.decrements (nodup_pages s handle.start handle.size) hcount
    simp only [if_neg hzero]
    exact ⟨hcounted.samePages (samePages_addFreeSpaceFromReleasedHandle _ _ _), hreports⟩

/-- A handle that is shrunk to nothing begins with a page. -/
def KeepsFirstPage (s : Sizes) (_ : System) : Event → Prop
  | .allocate _ _ _ => True
  | .shrink handle newSizeInBytes => newSizeInBytes = 0 → handle.size = 0 ∨ s.pageSize ∣ handle.start
  | .release _ => True
  | .addFreshFreeSpace _ _ => True

omit h in
theorem roundUp_eq_zero {n : ℕ} (h : s.roundUp n = some 0) : n = 0 :=
  le_zero.mp (le_roundUp h)

theorem Occupied.shrink (haccounted : Accounted s σ)
    (he : Enabled s σ (.shrink handle newSizeInBytes))
    (hkeeps : KeepsFirstPage s σ (.shrink handle newSizeInBytes))
    (hstep : step s σ (.shrink handle newSizeInBytes) = some σ') :
    Occupied s σ' ∧ ReportsFreed s σ σ' (reportedFree s σ (.shrink handle newSizeInBytes)) := by
  obtain ⟨hmem, hle⟩ := he
  unfold step MetaAllocator.shrink at hstep
  cases hround : s.roundUp newSizeInBytes with
  | none => simp only [hround, reduceCtorEq] at hstep
  | some size =>
    have hle := roundUp_le hround hle (haccounted.granules _ hmem)
    simp only [hround] at hstep
    by_cases heq : size = handle.size
    · -- the size is what it was
      simp only [if_pos heq, Option.some.injEq, Multiset.cons_erase hmem] at hstep
      subst hstep
      simp only [reportedFree, hround, if_pos heq]
      exact ⟨h, reportsFreed_nil fun page hpage => hpage⟩
    have hlt : size < handle.size := lt_of_le_of_ne hle heq
    have hlimit := haccounted.le_addressLimit hmem (zero_lt_of_lt hlt)
    have haligned : size = 0 → s.pageSize ∣ handle.start := by
      rintro rfl
      exact (hkeeps (roundUp_eq_zero hround)).resolve_left hlt.ne'
    have hfirst : (BitVec.ofNat 64 (handle.start + size + s.pageSize - 1)
        &&& ~~~(BitVec.ofNat 64 (s.pageSize - 1))).toNat
          = (handle.start + size + s.pageSize - 1) / s.pageSize * s.pageSize :=
      firstCompletelyFreePage_eq (by omega)
    have hend : handle.start + size + (handle.size - size) = handle.start + handle.size := by omega
    simp only [if_neg heq, Option.some.injEq] at hstep
    subst hstep
    simp only [reportedFree, hround, if_neg heq, hfirst, hend]
    -- a page is counted down if it is not among those of what is left
    have hcount : ∀ {freed : List ℕ}, (∀ page, page ∈ freed ↔
        (handle.start + size + s.pageSize - 1) / s.pageSize ≤ page ∧
          page ≤ (handle.start + handle.size - 1) / s.pageSize) →
        ∀ page, occupants s σ.handles page =
          occupants s (⟨handle.start, size⟩ ::ₘ σ.handles.erase handle) page
            + if page ∈ freed then 1 else 0 := by
      intro freed hfreed page
      have hmeets := @meets_shrink s handle.start size handle.size page hlt haligned
      rw [occupants_erase hmem, occupants_cons, add_assoc]
      refine congrArg _ ?_
      by_cases hleft : Meets s ⟨handle.start, size⟩ page
      · have hnot : page ∉ freed := fun hin => by
          have hpage := lt_of_meets hleft
          have := ((hfreed page).mp hin).1
          omega
        rw [if_pos hleft, if_neg hnot, if_pos (hmeets.mpr (.inl hleft))]
      · rw [if_neg hleft, zero_add]
        refine if_congr (hmeets.trans ?_) rfl rfl
        rw [or_iff_right hleft, hfreed]
    by_cases hfree : (handle.start + size + s.pageSize - 1) / s.pageSize * s.pageSize
        < handle.start + handle.size
    · obtain ⟨hcounted, hreports⟩ := h.decrements (nodup_pages s _ _)
        (hcount fun page => mem_shrunkPages hlt hlimit hfree)
      rw [if_pos hfree, if_pos hfree]
      exact ⟨hcounted.samePages (samePages_addFreeSpaceFromReleasedHandle _ _ _), hreports⟩
    · obtain ⟨hcounted, hreports⟩ := h.decrements nodup_nil (hcount fun page => by
        refine iff_of_false not_mem_nil fun hpage => hfree ?_
        have hstop := (le_div_iff_mul_le (pageSize_pos s)).mp (hpage.1.trans hpage.2)
        omega)
      rw [if_neg hfree, if_neg hfree]
      exact ⟨hcounted.samePages (samePages_addFreeSpaceFromReleasedHandle _ _ _), hreports⟩

theorem Occupied.addFreshFreeSpace
    (hstep : step s σ (.addFreshFreeSpace start sizeInBytes) = some σ') :
    Occupied s σ' ∧ ReportsFreed s σ σ' [] := by
  obtain rfl := Option.some.inj hstep
  refine ⟨?_, reportsFreed_nil fun page hpage => hpage⟩
  have hreserved := Counted.congr (b := { σ.allocator with
    bytesReserved := σ.allocator.bytesReserved + sizeInBytes }) h rfl rfl
  exact hreserved.samePages (samePages_addFreeSpace _ _ _)

omit h

theorem ReportsFreed.allocate (hstep : step s σ (.allocate sizeInBytes found newSpace) = some σ') :
    ReportsFreed s σ σ' [] := by
  -- handles are only added
  have hle : σ.handles ≤ σ'.handles := by
    unfold step at hstep
    cases hallocate : σ.allocator.allocate s sizeInBytes found newSpace with
    | none => simp only [hallocate, reduceCtorEq] at hstep
    | some result =>
      obtain ⟨handle, a⟩ := result
      cases handle with
      | none =>
        simp only [hallocate, Option.some.injEq] at hstep
        exact hstep ▸ le_rfl
      | some handle =>
        simp only [hallocate, Option.some.injEq] at hstep
        exact hstep ▸ Multiset.le_cons_self _ _
  refine reportsFreed_nil fun page hpage hzero => hpage ?_
  exact le_zero.mp ((Multiset.countP_le_of_le _ hle).trans_eq hzero)

end Calls

/-! ## Runs -/

/-- Sizes are moderate, and a handle that is shrunk to nothing begins with a page. -/
def Tidy (s : Sizes) (σ : System) (e : Event) : Prop := Moderate s σ e ∧ KeepsFirstPage s σ e

variable {σ σ' : System}

theorem Reachable.mono (hPQ : ∀ σ e, P σ e → Q σ e) (h : Reachable s P σ) : Reachable s Q σ := by
  induction h with
  | start => exact .start
  | step _ enabled hP hstep ih => exact .step ih enabled (hPQ _ _ hP) hstep

theorem Occupied.start (s : Sizes) : Occupied s {} where
  occupancy _ := rfl
  committed := ⟨∅, fun _ => iff_of_false (Finset.notMem_empty _) (not_not.mpr rfl), rfl⟩

theorem Occupied.step (h : Occupied s σ) (haccounted : Accounted s σ) (haccounted' : Accounted s σ')
    {e : Event} (he : Enabled s σ e) (htidy : Tidy s σ e) (hstep : WTF.step s σ e = some σ') :
    Occupied s σ' ∧ ReportsFreed s σ σ' (reportedFree s σ e) := by
  cases e with
  | allocate sizeInBytes found newSpace =>
    exact ⟨h.allocate haccounted' hstep, .allocate hstep⟩
  | shrink handle newSizeInBytes => exact h.shrink haccounted he htidy.2 hstep
  | release handle => exact h.release haccounted he hstep
  | addFreshFreeSpace start sizeInBytes => exact h.addFreshFreeSpace hstep

theorem Occupied.of_reachable (h : Reachable s (Tidy s) σ) : Occupied s σ := by
  induction h with
  | start => exact .start s
  | step hreachable enabled hP hstep ih =>
    have hmoderate := hreachable.mono (Q := Moderate s) fun _ _ hP => hP.1
    exact (ih.step (.of_reachable hmoderate) (.of_reachable (hmoderate.step enabled hP.1 hstep))
      enabled hP hstep).1

/-- The map of pages, what is committed, and what the next call reports. -/
structure PagesRight (s : Sizes) (P : System → Event → Prop) (σ : System) : Prop where
  /-- A page is in the map with the number of live handles that have a byte in it. -/
  occupancy : ∀ page, σ.allocator.pageOccupancyMap page =
    if σ.handles.countP (Meets s · page) = 0 then none else some (σ.handles.countP (Meets s · page))
  committed : ∃ present : Finset ℕ,
    (∀ page, page ∈ present ↔ σ.allocator.pageOccupancyMap page ≠ none) ∧
      σ.allocator.bytesCommitted = s.pageSize * present.card
  /-- A page is reported free when its last byte in use is released. -/
  reported : ∀ e σ', Enabled s σ e → P σ e → step s σ e = some σ' →
    ∀ page, page ∈ reportedFree s σ e ↔ (∃ h ∈ σ.handles, Meets s h page) ∧
      ∀ h ∈ σ'.handles, ¬ Meets s h page

/-- In every run that shrinks no handle to nothing from inside of a page, the pages in the map are
those in use, so many are committed, and a page is reported free when nothing in it is in use any
more. -/
theorem pagesRight_of_reachable (h : Reachable s (Tidy s) σ) : PagesRight s (Tidy s) σ := by
  have hoccupied := Occupied.of_reachable h
  have hmoderate := h.mono (Q := Moderate s) fun _ _ hP => hP.1
  refine ⟨hoccupied.occupancy, ?_, ?_⟩
  · obtain ⟨present, hpresent, hcommitted⟩ := hoccupied.committed
    refine ⟨present, fun page => (hpresent page).trans ?_, hcommitted⟩
    rw [hoccupied.occupancy]
    split
    · rename_i hzero
      exact iff_of_false (not_not.mpr hzero) (not_not.mpr rfl)
    · rename_i hne
      exact iff_of_true hne (Option.some_ne_none _)
  · intro e σ' enabled htidy hstep page
    have hmoderate' := hmoderate.step enabled htidy.1 hstep
    have hreports := (hoccupied.step (.of_reachable hmoderate) (.of_reachable hmoderate') enabled
      htidy hstep).2 page
    rw [hreports, occupants, occupants, Multiset.countP_eq_zero, ← pos_iff_ne_zero,
      Multiset.countP_pos]

/-! ## A handle shrunk to nothing -/

/-- A page is reserved for a handle of 32 bytes. -/
def firstHandle : Event := .allocate 32 none (some (4096, 1))

/-- Another handle, of the bytes after the first. -/
def secondHandle : Event := .allocate 32 (some 0) none

def firstAllocated : System := (step usualSizes {} firstHandle).getD {}

def bothAllocated : System := (step usualSizes firstAllocated secondHandle).getD {}

/-- The second handle is shrunk to nothing. -/
def secondShrunk : System :=
  (step usualSizes bothAllocated (.shrink ⟨4128, 32⟩ 0)).getD {}

theorem eq_thirtyTwo {size} (hround : usualSizes.roundUp 32 = some size) : 32 = size := by
  have hthirtytwo : usualSizes.roundUp 32 = some 32 := by decide +kernel
  exact Option.some.inj (hthirtytwo.symm.trans hround)

theorem enabled_firstHandle : Enabled usualSizes {} firstHandle := by
  intro _ size hround
  obtain rfl := eq_thirtyTwo hround
  refine ⟨nofun, fun start numberOfPages hspace => ?_⟩
  obtain ⟨rfl, rfl⟩ := Prod.mk.inj (Option.some.inj hspace)
  exact ⟨by decide +kernel, by decide +kernel, by decide, by decide +kernel, fun _ _ => rfl⟩

theorem enabled_secondHandle : Enabled usualSizes firstAllocated secondHandle := by
  intro _ size hround
  obtain rfl := eq_thirtyTwo hround
  refine ⟨⟨by decide +kernel, by decide +kernel, by decide +kernel⟩, nofun⟩

theorem moderate_thirtyTwo (σ : System) :
    Moderate usualSizes σ (.allocate 32 found newSpace) := by
  intro size hround
  obtain rfl := eq_thirtyTwo hround
  decide

theorem pagesRight_bothAllocated : PagesRight usualSizes (Tidy usualSizes) bothAllocated := by
  have hfirst : step usualSizes {} firstHandle = some firstAllocated := rfl
  have hsecond : step usualSizes firstAllocated secondHandle = some bothAllocated := rfl
  exact pagesRight_of_reachable (.step (.step .start enabled_firstHandle
    ⟨moderate_thirtyTwo _, trivial⟩ hfirst) enabled_secondHandle ⟨moderate_thirtyTwo _, trivial⟩
    hsecond)

/-- The page stays counted twice, with one handle in it that is not empty. -/
theorem not_pagesRight_secondShrunk : Reachable usualSizes (Moderate usualSizes) secondShrunk
    ∧ secondShrunk.handles = {⟨4128, 0⟩, ⟨4096, 32⟩}
    ∧ secondShrunk.allocator.pageOccupancyMap 1 = some 2
    ∧ ¬ PagesRight usualSizes (Moderate usualSizes) secondShrunk := by
  have hfirst : step usualSizes {} firstHandle = some firstAllocated := rfl
  have hsecond : step usualSizes firstAllocated secondHandle = some bothAllocated := rfl
  have hshrunk : step usualSizes bothAllocated (.shrink ⟨4128, 32⟩ 0) = some secondShrunk := rfl
  have hmap : secondShrunk.allocator.pageOccupancyMap 1 = some 2 := by decide +kernel
  refine ⟨.step (.step (.step .start enabled_firstHandle (moderate_thirtyTwo _) hfirst)
    enabled_secondHandle (moderate_thirtyTwo _) hsecond) ?_ ?_ hshrunk, by decide +kernel,
    hmap, fun h => ?_⟩
  · exact ⟨by decide +kernel, zero_le _⟩
  · exact trivial
  · have hright := h.occupancy 1
    revert hright
    decide +kernel

end WTF
end WebKit
