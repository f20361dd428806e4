import WebKit.Library.Overlay
import Mathlib.Data.List.Sort

/-!
# Maps sorted by a comparator

A store is sorted by a three-way comparison function on its keys.  The comparison is only a total
preorder: different keys may compare as equal, and then name the same entry.  `Ranked` gives every
key a rank in a linear order that decides the comparison, and the contents of a map are read at
ranks.

A cursor over a map stands on a key or at the end.  Walking in reverse is walking forward in the
dual order, so the position of a cursor is taken in `Direction.Rank`, the order or its dual, and
every statement about a step is made once for both directions.
-/

namespace WebKit

open List

class Comparator (K : Type*) where
  compareKeys : K → K → ℤ

export Comparator (compareKeys)

/-- The comparison is the one of the ranks. -/
class Ranked (K : Type*) (O : outParam (Type*)) [Comparator K] [LinearOrder O] where
  rank : K → O
  compare_neg_iff : ∀ a b : K, compareKeys a b < 0 ↔ rank a < rank b
  compare_eq_zero_iff : ∀ a b : K, compareKeys a b = 0 ↔ rank a = rank b

export Ranked (rank)

section Ranked

variable {K O : Type*} [Comparator K] [LinearOrder O] [Ranked K O]
variable {a b : K}

theorem compare_neg_iff : compareKeys a b < 0 ↔ rank a < rank b :=
  Ranked.compare_neg_iff a b

theorem compare_eq_zero_iff : compareKeys a b = 0 ↔ rank a = rank b :=
  Ranked.compare_eq_zero_iff a b

theorem compare_nonneg_iff : 0 ≤ compareKeys a b ↔ rank b ≤ rank a := by
  rw [← not_lt, compare_neg_iff, not_lt]

theorem compare_pos_iff : 0 < compareKeys a b ↔ rank b < rank a := by
  rw [lt_iff_le_and_ne, compare_nonneg_iff, ne_comm, Ne, compare_eq_zero_iff, lt_iff_le_and_ne,
    eq_comm]

end Ranked

instance : Comparator ℤ := ⟨fun a b => a - b⟩

instance : Ranked ℤ ℤ where
  rank a := a
  compare_neg_iff a b := by
    change a - b < 0 ↔ a < b
    omega
  compare_eq_zero_iff a b := by
    change a - b = 0 ↔ a = b
    omega

/-! ## Directions -/

inductive Direction where
  | forward
  | reverse
  deriving DecidableEq

namespace Direction

/-- The order in which a direction walks. -/
def Rank (d : Direction) (O : Type*) : Type _ :=
  match d with
  | .forward => O
  | .reverse => Oᵒᵈ

instance {O : Type*} [LinearOrder O] : (d : Direction) → LinearOrder (d.Rank O)
  | .forward => inferInstanceAs (LinearOrder O)
  | .reverse => inferInstanceAs (LinearOrder Oᵒᵈ)

variable {O : Type*}

/-- A rank in the order of the direction. -/
def ofRank : (d : Direction) → O → d.Rank O
  | .forward => fun o => o
  | .reverse => OrderDual.toDual

def toRank : (d : Direction) → d.Rank O → O
  | .forward => fun o => o
  | .reverse => OrderDual.ofDual

@[simp] theorem toRank_ofRank (d : Direction) (o : O) : d.toRank (d.ofRank o) = o := by
  cases d <;> rfl

@[simp] theorem ofRank_toRank (d : Direction) (x : d.Rank O) : d.ofRank (d.toRank x) = x := by
  cases d <;> rfl

theorem toRank_injective {d : Direction} : Function.Injective (d.toRank : d.Rank O → O) :=
  Function.LeftInverse.injective d.ofRank_toRank

@[simp] theorem ofRank_inj {d : Direction} : d.ofRank o = d.ofRank o' ↔ o = o' := by
  refine ⟨fun h => ?_, fun h => h ▸ rfl⟩
  rw [← d.toRank_ofRank o, h, toRank_ofRank]

end Direction

section Position

variable {K O : Type*} [Comparator K] [LinearOrder O] [Ranked K O]

/-- The place of a cursor: the rank of its key, or the end. -/
def position (d : Direction) (k : Option K) : WithTop (d.Rank O) :=
  match k with
  | none => ⊤
  | some k => (d.ofRank (rank k) : d.Rank O)

@[simp] theorem position_none (d : Direction) : position (K := K) (O := O) d none = ⊤ := rfl

@[simp] theorem position_some (d : Direction) (k : K) :
    position d (some k) = ((d.ofRank (rank k) : d.Rank O) : WithTop (d.Rank O)) := rfl

theorem position_eq_top_iff {k : Option K} : position d k = ⊤ ↔ k = none := by
  cases k <;> simp

theorem position_eq_coe_iff {k : Option K} {x : d.Rank O} :
    position d k = x ↔ ∃ a, k = some a ∧ d.ofRank (rank a) = x := by
  cases k with
  | _ => simp

end Position

/-! ## Sorted maps -/

/-- The first element of a sorted list that satisfies a test. -/
theorem isFirst_find? {α L : Type*} [LinearOrder L] {l : List α} {f : α → L}
    (hl : l.Pairwise fun a b => f a < f b) (p : α → Bool) {q : WithTop L}
    (hq : (l.find? p = none → q = ⊤) ∧ ∀ a, l.find? p = some a → q = f a) :
    IsFirst {x | ∃ a ∈ l, p a = true ∧ f a = x} q := by
  induction l with
  | nil =>
    rw [hq.1 rfl, IsFirst.top_iff]
    simp
  | cons a l ih =>
    rw [pairwise_cons] at hl
    cases hp : p a with
    | true =>
      rw [hq.2 a (List.find?_cons_of_pos hp), IsFirst.coe_iff]
      refine ⟨⟨a, mem_cons_self .., hp, rfl⟩, ?_⟩
      rintro y ⟨b, hb, -, rfl⟩
      rcases mem_cons.mp hb with rfl | hb
      · exact le_rfl
      · exact (hl.1 b hb).le
    | false =>
      have hfind : (a :: l).find? p = l.find? p := List.find?_cons_of_neg (by simp [hp])
      rw [hfind] at hq
      refine (ih hl.2 hq).congr fun x => ?_
      simp [hp]

structure SortedMap (K α : Type*) [Comparator K] where
  entries : List (K × α)
  sorted : entries.Pairwise fun a b : K × α => compareKeys a.1 b.1 < 0

namespace SortedMap

variable {K α O : Type*} [Comparator K]

def empty : SortedMap K α := ⟨[], List.Pairwise.nil⟩

variable (m : SortedMap K α)

def find? (k : K) : Option (K × α) :=
  m.entries.find? fun e => compareKeys e.1 k = 0

/-- The first key not below `k`. -/
def seek (k : K) : Option K :=
  (m.entries.find? fun e => 0 ≤ compareKeys e.1 k).map Prod.fst

/-- The first key above `k`. -/
def next (k : K) : Option K :=
  (m.entries.find? fun e => 0 < compareKeys e.1 k).map Prod.fst

/-- The last key below `k`. -/
def prev (k : K) : Option K :=
  (m.entries.reverse.find? fun e => compareKeys e.1 k < 0).map Prod.fst

def last : Option K := m.entries.getLast?.map Prod.fst

/-- The next key in a direction. -/
def step : Direction → K → Option K
  | .forward => m.next
  | .reverse => m.prev

def insertEntry (k : K) (x : α) : List (K × α) → List (K × α)
  | [] => [(k, x)]
  | e :: es =>
    if compareKeys k e.1 < 0 then (k, x) :: e :: es
    else if compareKeys k e.1 = 0 then (k, x) :: es
    else e :: insertEntry k x es

variable {e : K × α} {k : K} {l : List (K × α)} {o : O} {d : Direction}

theorem mem_insertEntry (h : e ∈ insertEntry k x l) : e = (k, x) ∨ e ∈ l := by
  induction l with
  | nil => exact Or.inl (mem_singleton.mp h)
  | cons a l ih =>
    rw [insertEntry] at h
    split at h
    · exact mem_cons.mp h
    · split at h
      · exact (mem_cons.mp h).imp_right (mem_cons_of_mem a)
      · rcases mem_cons.mp h with rfl | h
        · exact Or.inr (mem_cons_self ..)
        · exact (ih h).imp_right (mem_cons_of_mem a)

variable [LinearOrder O] [Ranked K O]

include O in
theorem sorted_insertEntry (k : K) (x : α)
    (h : l.Pairwise fun a b : K × α => compareKeys a.1 b.1 < 0) :
    (insertEntry k x l).Pairwise fun a b : K × α => compareKeys a.1 b.1 < 0 := by
  induction l with
  | nil => exact pairwise_singleton _ _
  | cons a l ih =>
    rw [pairwise_cons] at h
    rw [insertEntry]
    split
    · next hlt =>
      refine pairwise_cons.mpr ⟨fun b hb => ?_, pairwise_cons.mpr h⟩
      rcases mem_cons.mp hb with rfl | hb
      · exact hlt
      · have hab : rank a.1 < rank b.1 := compare_neg_iff.mp (h.1 b hb)
        exact compare_neg_iff.mpr (lt_trans (compare_neg_iff.mp hlt) hab)
    · split
      · next heq =>
        refine pairwise_cons.mpr ⟨fun b hb => ?_, h.2⟩
        have hka : rank k = rank a.1 := compare_eq_zero_iff.mp heq
        have hab : rank a.1 < rank b.1 := compare_neg_iff.mp (h.1 b hb)
        exact compare_neg_iff.mpr (hka ▸ hab)
      · next hlt heq =>
        refine pairwise_cons.mpr ⟨fun b hb => ?_, ih h.2⟩
        rcases mem_insertEntry hb with rfl | hb
        · have hle : rank a.1 ≤ rank k := compare_nonneg_iff.mp (not_lt.mp hlt)
          have hne : rank a.1 ≠ rank k := fun hc => heq (compare_eq_zero_iff.mpr hc.symm)
          exact compare_neg_iff.mpr (lt_of_le_of_ne hle hne)
        · exact h.1 b hb

variable (m : SortedMap K α)

/-- The map with an entry put in the place of its key. -/
def insert (k : K) (x : α) : SortedMap K α :=
  ⟨insertEntry k x m.entries, sorted_insertEntry k x m.sorted⟩

/-- The map without the entry of a key. -/
def erase (k : K) : SortedMap K α :=
  ⟨m.entries.filter fun e => compareKeys e.1 k ≠ 0, m.sorted.filter _⟩

/-! ## Reading a map at a rank -/

/-- The entry at a rank. -/
def lookup (o : O) : Option (K × α) := m.entries.find? fun e => rank e.1 = o

theorem find?_eq_lookup (k : K) : m.find? k = m.lookup (rank k) := by
  simp only [find?, lookup, compare_eq_zero_iff]

theorem rank_of_lookup {m : SortedMap K α} (h : m.lookup o = some e) : rank e.1 = o := by
  simpa using List.find?_some h

theorem mem_of_lookup {m : SortedMap K α} (h : m.lookup o = some e) : e ∈ m.entries :=
  mem_of_find?_eq_some h

theorem rank_lt_of_sorted (h : l.Pairwise fun a b : K × α => compareKeys a.1 b.1 < 0) :
    l.Pairwise fun a b : K × α => (rank a.1 : O) < rank b.1 :=
  h.imp fun hab => compare_neg_iff.mp hab

theorem find?_rank_of_mem (h : l.Pairwise fun a b : K × α => (rank a.1 : O) < rank b.1)
    (he : e ∈ l) : l.find? (fun a => rank a.1 = rank e.1) = some e := by
  induction l with
  | nil => simp at he
  | cons a l ih =>
    rw [pairwise_cons] at h
    rcases mem_cons.mp he with rfl | he
    · exact List.find?_cons_of_pos (by simp)
    · rw [List.find?_cons_of_neg (by simp [(h.1 e he).ne]), ih h.2 he]

theorem lookup_of_mem {m : SortedMap K α} (h : e ∈ m.entries) : m.lookup (rank e.1) = some e :=
  find?_rank_of_mem (rank_lt_of_sorted m.sorted) h

theorem lookup_eq_none_iff {m : SortedMap K α} :
    m.lookup o = none ↔ ∀ e ∈ m.entries, rank e.1 ≠ o := by
  simp [lookup]

theorem lookup_isSome_iff {m : SortedMap K α} :
    (m.lookup o).isSome ↔ ∃ e ∈ m.entries, rank e.1 = o := by
  simp [lookup]

theorem find?_insertEntry (k : K) (x : α)
    (h : l.Pairwise fun a b : K × α => (rank a.1 : O) < rank b.1) (o : O) :
    (insertEntry k x l).find? (fun e => rank e.1 = o) =
      if rank k = o then some (k, x) else l.find? fun e => rank e.1 = o := by
  induction l with
  | nil => by_cases hk : rank k = o <;> simp [insertEntry, hk]
  | cons a l ih =>
    rw [pairwise_cons] at h
    rw [insertEntry]
    split
    · next hlt => by_cases hk : rank k = o <;> simp [hk]
    · split
      · next heq =>
        have hka : rank k = rank a.1 := compare_eq_zero_iff.mp heq
        by_cases hk : rank k = o
        · simp [hk]
        · simp [hk, ← hka]
      · next heq =>
        have hka : rank a.1 ≠ rank k := fun hc => heq (compare_eq_zero_iff.mpr hc.symm)
        by_cases ha : rank a.1 = o
        · have hk : rank k ≠ o := fun hc => hka (ha.trans hc.symm)
          simp [ha, hk]
        · simp [ha, ih h.2]

theorem lookup_insert (k : K) (x : α) (o : O) :
    (m.insert k x).lookup o = if rank k = o then some (k, x) else m.lookup o :=
  find?_insertEntry k x (rank_lt_of_sorted m.sorted) o

theorem lookup_erase (k : K) (o : O) :
    (m.erase k).lookup o = if rank k = o then none else m.lookup o := by
  have hmem : ∀ e : K × α, e ∈ (m.erase k).entries ↔ e ∈ m.entries ∧ rank e.1 ≠ rank k := by
    simp [erase, compare_eq_zero_iff]
  split
  · next h =>
    rw [lookup_eq_none_iff]
    intro e he
    rw [← h]
    exact ((hmem e).mp he).2
  · next h =>
    cases hm : m.lookup o with
    | none =>
      rw [lookup_eq_none_iff] at hm ⊢
      exact fun e he => hm e ((hmem e).mp he).1
    | some e =>
      obtain rfl := rank_of_lookup hm
      exact lookup_of_mem ((hmem e).mpr ⟨mem_of_lookup hm, fun hc => h hc.symm⟩)

/-! ## Cursors over a map -/

/-- The ranks of the keys, in the order of a direction. -/
def ranks (d : Direction) : Set (d.Rank O) :=
  {x | (m.lookup (d.toRank x)).isSome}

theorem mem_ranks_iff {m : SortedMap K α} {x : d.Rank O} :
    x ∈ m.ranks d ↔ ∃ e ∈ m.entries, d.ofRank (rank e.1) = x := by
  have h : ∀ e : K × α, rank e.1 = d.toRank x ↔ d.ofRank (rank e.1) = x := fun e => by
    rw [← Direction.ofRank_inj (d := d), Direction.ofRank_toRank]
  rw [ranks, Set.mem_ofPred_eq, lookup_isSome_iff]
  simp only [h]

/-- The entries in the order of a direction. -/
def walk : Direction → List (K × α)
  | .forward => m.entries
  | .reverse => m.entries.reverse

theorem mem_walk {m : SortedMap K α} : e ∈ m.walk d ↔ e ∈ m.entries := by
  cases d with
  | forward => exact Iff.rfl
  | reverse => exact mem_reverse

theorem sorted_walk (d : Direction) :
    (m.walk d).Pairwise fun a b => d.ofRank (rank a.1 : O) < d.ofRank (rank b.1) := by
  cases d with
  | forward => exact rank_lt_of_sorted m.sorted
  | reverse => exact pairwise_reverse.mpr (rank_lt_of_sorted m.sorted)

/-- The first entry of a walk that satisfies a test of its rank. -/
theorem isFirst_walk (d : Direction) {p : K × α → Bool}
    {q : d.Rank O → Prop} (hpq : ∀ e, p e = true ↔ q (d.ofRank (rank e.1))) :
    IsFirst {x | x ∈ m.ranks d ∧ q x} (position d (((m.walk d).find? p).map Prod.fst)) := by
  refine (isFirst_find? (m.sorted_walk d) p ⟨?_, ?_⟩).congr ?_
  · intro h
    rw [h]
    rfl
  · intro e h
    rw [h]
    rfl
  · intro x
    rw [Set.mem_ofPred_eq, Set.mem_ofPred_eq, mem_ranks_iff]
    constructor
    · rintro ⟨e, he, hp, rfl⟩
      exact ⟨⟨e, mem_walk.mp he, rfl⟩, (hpq e).mp hp⟩
    · rintro ⟨⟨e, he, rfl⟩, hq⟩
      exact ⟨e, mem_walk.mpr he, (hpq e).mpr hq, rfl⟩

theorem isFirst_seek (k : K) :
    IsFirst {x | x ∈ m.ranks .forward ∧ Direction.forward.ofRank (rank k) ≤ x}
      (position .forward (m.seek k)) := by
  refine m.isFirst_walk .forward fun e => ?_
  rw [decide_eq_true_iff, compare_nonneg_iff]
  rfl

theorem isFirst_step (d : Direction) (k : K) :
    IsFirst {x | x ∈ m.ranks d ∧ d.ofRank (rank k) < x} (position d (m.step d k)) := by
  cases d with
  | forward =>
    refine m.isFirst_walk .forward fun e => ?_
    rw [decide_eq_true_iff, compare_pos_iff]
    rfl
  | reverse =>
    refine m.isFirst_walk .reverse fun e => ?_
    rw [decide_eq_true_iff, compare_neg_iff]
    rfl

theorem isFirst_last : IsFirst (m.ranks .reverse) (position .reverse m.last) := by
  have h := m.isFirst_walk .reverse (p := fun _ => true) (q := fun _ => True) (by simp)
  have hlast : ((m.walk .reverse).find? fun _ => true) = m.entries.getLast? := by
    rw [List.getLast?_eq_head?_reverse, walk]
    cases m.entries.reverse <;> rfl
  rw [hlast] at h
  exact h.congr fun x => and_iff_left trivial

/-- `k` is the key of an entry. -/
def HasKey (k : K) : Prop := ∃ x, m.lookup (rank k) = some (k, x)

theorem HasKey.isSome {m : SortedMap K α} (h : m.HasKey k) : (m.lookup (rank k)).isSome :=
  h.elim fun _ hx => hx ▸ rfl

theorem hasKey_of_mem {m : SortedMap K α} (h : e ∈ m.entries) : m.HasKey e.1 :=
  ⟨e.2, lookup_of_mem h⟩

theorem hasKey_of_find? {m : SortedMap K α}
    (h : ((m.walk d).find? p).map Prod.fst = some k) : m.HasKey k := by
  obtain ⟨e, he, rfl⟩ := Option.map_eq_some_iff.mp h
  exact hasKey_of_mem (mem_walk.mp (mem_of_find?_eq_some he))

theorem hasKey_of_seek {m : SortedMap K α} (h : m.seek k = some k') : m.HasKey k' :=
  hasKey_of_find? (d := .forward) h

theorem hasKey_of_step {m : SortedMap K α} (h : m.step d k = some k') : m.HasKey k' := by
  cases d with
  | forward => exact hasKey_of_find? (d := .forward) h
  | reverse => exact hasKey_of_find? (d := .reverse) h

theorem hasKey_of_last {m : SortedMap K α} (h : m.last = some k) : m.HasKey k := by
  obtain ⟨e, he, rfl⟩ := Option.map_eq_some_iff.mp h
  exact hasKey_of_mem (mem_of_getLast? he)

/-! ## Reading on from a key -/

/-- The entries not below `k`, what a cursor still has to show after a seek. -/
def entriesFrom (k : K) : List (K × α) :=
  m.entries.dropWhile fun e => compareKeys e.1 k < 0

theorem sorted_entriesFrom (k : K) :
    (m.entriesFrom k).Pairwise fun a b : K × α => (rank a.1 : O) < rank b.1 :=
  (rank_lt_of_sorted m.sorted).sublist (dropWhile_sublist _)

variable (h : l.Pairwise fun a b : K × α => (rank a.1 : O) < rank b.1)

include h

theorem mem_dropWhile_iff :
    e ∈ l.dropWhile (fun e => compareKeys e.1 k < 0) ↔ e ∈ l ∧ rank k ≤ rank e.1 := by
  induction l with
  | nil => simp
  | cons a l ih =>
    rw [pairwise_cons] at h
    by_cases ha : compareKeys a.1 k < 0
    · rw [dropWhile_cons_of_pos (by simpa using ha), ih h.2, mem_cons]
      have hak : rank a.1 < rank k := compare_neg_iff.mp ha
      refine ⟨fun he => ⟨Or.inr he.1, he.2⟩, fun ⟨he, hk⟩ => ⟨he.resolve_left ?_, hk⟩⟩
      rintro rfl
      exact absurd hak (not_lt.mpr hk)
    · rw [dropWhile_cons_of_neg (by simpa using ha)]
      have hka : rank k ≤ rank a.1 := compare_nonneg_iff.mp (not_lt.mp ha)
      refine ⟨fun he => ⟨he, ?_⟩, And.left⟩
      rcases mem_cons.mp he with rfl | he
      · exact hka
      · exact hka.trans (h.1 e he).le

omit h in
theorem mem_entriesFrom {m : SortedMap K α} :
    e ∈ m.entriesFrom k ↔ e ∈ m.entries ∧ rank k ≤ rank e.1 :=
  mem_dropWhile_iff (rank_lt_of_sorted m.sorted)

theorem mem_takeWhile_iff :
    e ∈ l.takeWhile (fun e => compareKeys e.1 k < 0) ↔ e ∈ l ∧ rank e.1 < rank k := by
  induction l with
  | nil => simp
  | cons a l ih =>
    rw [pairwise_cons] at h
    by_cases ha : compareKeys a.1 k < 0
    · have hak : rank a.1 < rank k := compare_neg_iff.mp ha
      rw [takeWhile_cons_of_pos (by simpa using ha), mem_cons, mem_cons, ih h.2]
      refine ⟨?_, fun ⟨he, hk⟩ => he.imp_right fun he => ⟨he, hk⟩⟩
      rintro (rfl | he)
      · exact ⟨Or.inl rfl, hak⟩
      · exact ⟨Or.inr he.1, he.2⟩
    · rw [takeWhile_cons_of_neg (by simpa using ha)]
      have hka : rank k ≤ rank a.1 := compare_nonneg_iff.mp (not_lt.mp ha)
      refine ⟨fun he => absurd he (by simp), fun ⟨he, hk⟩ => ?_⟩
      rcases mem_cons.mp he with rfl | he
      · exact absurd hk (not_lt.mpr hka)
      · exact absurd hk (not_lt.mpr (hka.trans (h.1 e he).le))

/-- A strictly sorted list is determined by its members. -/
theorem eq_of_mem_iff
    (h' : l'.Pairwise fun a b : K × α => (rank a.1 : O) < rank b.1) (hmem : ∀ e, e ∈ l ↔ e ∈ l') :
    l = l' := by
  let r : K × α → K × α → Prop := fun a b => rank a.1 < rank b.1
  have hantisymm : Std.Antisymm r := ⟨fun a b hab hba => absurd hab (lt_asymm hba)⟩
  exact List.Pairwise.eq_of_mem_iff (r := r) h h' hmem

omit h

/-- Reading on from a key, the entries below another key come first. -/
theorem entriesFrom_eq_append {m : SortedMap K α} {stop : K}
    (hl : l.Pairwise fun a b : K × α => (rank a.1 : O) < rank b.1)
    (hmem : ∀ e, e ∈ l ↔ e ∈ m.entries ∧ rank start ≤ rank e.1 ∧ rank e.1 < rank stop) :
    ∃ rest, m.entriesFrom start = l ++ rest ∧ ∀ e ∈ rest, rank stop ≤ rank e.1 := by
  have hsorted : (m.entriesFrom start).Pairwise fun a b : K × α => (rank a.1 : O) < rank b.1 :=
    m.sorted_entriesFrom start
  have hl' : l = (m.entriesFrom start).takeWhile fun e => compareKeys e.1 stop < 0 := by
    refine eq_of_mem_iff hl (hsorted.sublist (takeWhile_sublist _)) fun e => ?_
    rw [hmem, mem_takeWhile_iff hsorted, mem_entriesFrom, and_assoc]
  refine ⟨(m.entriesFrom start).dropWhile fun e => compareKeys e.1 stop < 0, ?_, fun e he => ?_⟩
  · rw [hl', takeWhile_append_dropWhile]
  · exact ((mem_dropWhile_iff hsorted).mp he).2

end SortedMap

end WebKit
