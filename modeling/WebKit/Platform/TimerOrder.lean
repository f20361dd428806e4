import Mathlib.Data.Prod.Lex
import WebKit.Platform.TimerHeap

/-!
# The order of the timers

The active timers are in the heap, the first to fire first (`ThreadTimers.Consistent`), as long as no
timer is set to NaN or to minus infinity, the time that a timer is forced to before it is popped.

* `lessThan_iff`: the comparison is that of the keys.
* `popped_heapPop`: a timer is brought to the end of the heap.
* `Consistent.setNextFireTime`: the heap is kept in order.
-/

namespace WebKit

open List
namespace Platform

open BinaryHeap

/-! ## The order of the timers -/

namespace Double

variable {α : Type*} [LinearOrder α] [OrderBot α]

def value : Double α → α
  | nan => ⊥
  | num a => a

/-- Neither NaN nor minus infinity. -/
def IsOrdinary (time : Double α) : Prop := ∃ a, time = num a ∧ a ≠ ⊥

theorem eq_num_iff {b : Double α} : a.eq b = true ↔ ∃ x, a = num x ∧ b = num x := by
  cases a <;> cases b <;> simp [eq, eq_comm]

end Double

section

variable {κ α : Type*} [DecidableEq κ] [LinearOrder α] [OrderBot α]

/-- The time, and the order of the starts. -/
def key (base : κ → TimerBase α) (timer : κ) : α ×ₗ ℕ :=
  toLex ((base timer).nextFireTime.value, (base timer).heapInsertionOrder)

variable {base : κ → TimerBase α} {members : κ → Prop}

theorem key_congr {base' : κ → TimerBase α} {timer : κ} (h : base timer = base' timer) :
    key base timer = key base' timer := by
  rw [key, key, h]

/-- Two timers with numbers, started less than `2 ^ 31 - 1` apart where the numbers are equal. -/
structure Comparable (base : κ → TimerBase α) (a b : κ) : Prop where
  ne_nan : ∀ timer ∈ [a, b], (base timer).nextFireTime = .num (base timer).nextFireTime.value
  apart : (base a).nextFireTime.value = (base b).nextFireTime.value →
    (base a).heapInsertionOrder ≠ (base b).heapInsertionOrder ∧
      (base a).heapInsertionOrder < (base b).heapInsertionOrder + (2 ^ 31 - 1) ∧
      (base b).heapInsertionOrder < (base a).heapInsertionOrder + (2 ^ 31 - 1)

/-- The difference of the numbers says which of two timers was started first. -/
theorem difference_lt_iff (hne : m ≠ n) (hm : m < n + (2 ^ 31 - 1)) (hn : n < m + (2 ^ 31 - 1)) :
    UInt32.ofNat m - UInt32.ofNat n < 0xFFFFFFFF / 2 ↔ n < m := by
  rw [UInt32.lt_iff_toNat_lt, UInt32.toNat_sub]
  have hhalf : (0xFFFFFFFF / 2 : UInt32).toNat = 2 ^ 31 - 1 := by decide
  have hmod (k : ℕ) : (UInt32.ofNat k).toNat = k % 2 ^ 32 := UInt32.toNat_ofNat'
  rw [hmod, hmod]
  omega

theorem lessThan_iff {a b : κ} (h : Comparable base a b) :
    lessThan base a b = true ↔ key base b < key base a := by
  have ha := h.ne_nan a (by simp)
  have hb := h.ne_nan b (by simp)
  have hapart := h.apart
  rw [key, key, Prod.Lex.toLex_lt_toLex, lessThan]
  generalize (base a).nextFireTime.value = x at ha hapart ⊢
  generalize (base b).nextFireTime.value = y at hb hapart ⊢
  rw [ha, hb, Double.eq, Double.lt]
  by_cases heq : y = x
  · obtain ⟨hne, hab, hba⟩ := hapart heq.symm
    rw [decide_eq_true heq, if_neg (by decide), decide_eq_true_iff, difference_lt_iff hne hab hba]
    exact ⟨fun hlt => .inr ⟨heq, hlt⟩, fun h => h.elim (fun hlt => absurd heq hlt.ne) And.right⟩
  · rw [decide_eq_false heq, Bool.not_false, if_pos rfl, decide_eq_true_iff]
    exact ⟨.inl, fun h => h.elim id fun hlt => absurd hlt.1 heq⟩

/-- Timers with ordinary times, whose numbers tell them apart. -/
structure Ranked (base : κ → TimerBase α) (members : κ → Prop) : Prop where
  ordinary : ∀ timer, members timer → (base timer).nextFireTime.IsOrdinary
  ne : ∀ a, members a → ∀ b, members b → a ≠ b →
    (base a).heapInsertionOrder ≠ (base b).heapInsertionOrder
  spread : ∀ a, members a → ∀ b, members b →
    (base a).heapInsertionOrder < (base b).heapInsertionOrder + (2 ^ 31 - 1)

theorem Double.IsOrdinary.eq_num {time : Double α} (h : time.IsOrdinary) :
    time = .num time.value := by
  obtain ⟨a, rfl, -⟩ := h
  rfl

theorem Double.IsOrdinary.bot_lt {time : Double α} (h : time.IsOrdinary) : ⊥ < time.value := by
  obtain ⟨a, rfl, ha⟩ := h
  exact bot_lt_iff_ne_bot.mpr ha

theorem Ranked.comparable (h : Ranked base members) {a : κ} (ha : members a) (hb : members b)
    (hne : a ≠ b) : Comparable base a b where
  ne_nan := by
    intro timer htimer
    rcases mem_pair.mp htimer with rfl | rfl
    · exact (h.ordinary _ ha).eq_num
    · exact (h.ordinary _ hb).eq_num
  apart := fun _ => ⟨h.ne a ha b hb hne, h.spread a ha b hb, h.spread b hb a ha⟩

theorem Ranked.compares (h : Ranked base members) {timers : List κ}
    (hmem : ∀ timer ∈ timers, members timer) : Compares (key base) (lessThan base) timers :=
  fun a ha b hb hne => lessThan_iff (h.comparable (hmem a ha) (hmem b hb) hne)

/-- A timer with the time minus infinity among others that are ranked. -/
theorem Ranked.compares_forced {timer : κ} (h : Ranked base members)
    (hforced : (base timer).nextFireTime = .negInfinity)
    (hmem : ∀ other ∈ timers, other ≠ timer → members other) :
    Compares (key base) (lessThan base) timers := by
  have hvalue : (base timer).nextFireTime.value = ⊥ := by rw [hforced]; rfl
  have hnum : (base timer).nextFireTime = .num (base timer).nextFireTime.value := by
    rw [hforced]
    rfl
  have hcomparable {other : κ} (hother : members other) :
      Comparable base timer other ∧ Comparable base other timer := by
    have hlt := (h.ordinary other hother).bot_lt
    have heq := (h.ordinary other hother).eq_num
    constructor
    · refine ⟨fun u hu => ?_, fun hsame => absurd (hvalue.symm.trans hsame) hlt.ne⟩
      rcases mem_pair.mp hu with rfl | rfl
      · exact hnum
      · exact heq
    · refine ⟨fun u hu => ?_, fun hsame => absurd (hsame.trans hvalue) hlt.ne'⟩
      rcases mem_pair.mp hu with rfl | rfl
      · exact heq
      · exact hnum
  intro a ha b hb hne
  by_cases hatimer : a = timer
  · rw [hatimer] at hne ⊢
    exact lessThan_iff (hcomparable (hmem b hb hne.symm)).1
  · by_cases hbtimer : b = timer
    · rw [hbtimer]
      exact lessThan_iff (hcomparable (hmem a ha hatimer)).2
    · exact lessThan_iff (h.comparable (hmem a ha hatimer) (hmem b hb hbtimer) hne)

/-! ## The operations -/

namespace ThreadTimers

variable {s : ThreadTimers κ α} {timer : κ} {key₀ : κ → α ×ₗ ℕ} {members : κ → Prop}

theorem base_withNextFireTime_of_ne {time : Double α} {other : κ} (h : other ≠ timer) :
    (s.withNextFireTime timer time).base other = s.base other :=
  Function.update_of_ne h _ _

theorem base_withNextFireTime_self (s : ThreadTimers κ α) (timer : κ) (time : Double α) :
    (s.withNextFireTime timer time).base timer = { s.base timer with nextFireTime := time } :=
  Function.update_self _ _ _

theorem base_withRepeatInterval_of_ne (h : other ≠ timer) :
    (s.withRepeatInterval timer interval).base other = s.base other :=
  Function.update_of_ne h _ _

theorem base_withRepeatInterval_self (s : ThreadTimers κ α) (timer : κ) (interval : Double α) :
    (s.withRepeatInterval timer interval).base timer =
      { s.base timer with repeatInterval := interval } :=
  Function.update_self _ _ _

theorem base_heapDeleteMin (s : ThreadTimers κ α) (timer : κ) :
    (s.heapDeleteMin timer).base = s.base := rfl

/-- The time is put back. -/
theorem base_heapPop (s : ThreadTimers κ α) (timer : κ) : (s.heapPop timer).base = s.base := by
  funext other
  by_cases hne : other = timer
  · rw [hne, heapPop, base_withNextFireTime_self]
    change { (s.withNextFireTime timer .negInfinity).base timer with
      nextFireTime := (s.base timer).nextFireTime } = s.base timer
    rw [base_withNextFireTime_self]
  · rw [heapPop, base_withNextFireTime_of_ne hne]
    exact base_withNextFireTime_of_ne hne

/-- A timer is brought to the end of the heap while the others are ranked, whatever its time. -/
theorem popped_heapPop (h : s.timerHeap.Holds key₀ members) (hmember : members timer)
    (hagree : ∀ other ≠ timer, key s.base other = key₀ other)
    (hbot : ⊥ < (ofLex (key₀ timer)).1)
    (hranked : Ranked s.base fun other => members other ∧ other ≠ timer) :
    (s.heapPop timer).timerHeap.Popped (key s.base) members timer := by
  let forced := s.withNextFireTime timer .negInfinity
  have hforced : (forced.base timer).nextFireTime = .negInfinity := by
    rw [show forced.base timer = _ from base_withNextFireTime_self s timer .negInfinity]
  have hagree' (other : κ) (hne : other ≠ timer) : key forced.base other = key s.base other :=
    key_congr (base_withNextFireTime_of_ne hne)
  have hvalue : (key forced.base timer) = toLex (⊥, (forced.base timer).heapInsertionOrder) := by
    rw [key, hforced]
    rfl
  have hranked' : Ranked forced.base fun other => members other ∧ other ≠ timer := by
    have hbase {other : κ} (hne : other ≠ timer) : forced.base other = s.base other :=
      base_withNextFireTime_of_ne hne
    constructor
    · intro other hother
      rw [hbase hother.2]
      exact hranked.ordinary other hother
    · intro a ha b hb
      rw [hbase ha.2, hbase hb.2]
      exact hranked.ne a ha b hb
    · intro a ha b hb
      rw [hbase ha.2, hbase hb.2]
      exact hranked.spread a ha b hb
  have hcompares : Compares (key forced.base) (lessThan forced.base) s.timerHeap.timers :=
    hranked'.compares_forced hforced fun other hother hne => ⟨(h.mem_iff other).mp hother, hne⟩
  have hpopped := h.popped hmember
    (fun other hne => (hagree' other hne).trans (hagree other hne)) ?_ ?_ hcompares
  · exact hpopped.congr fun other hne => (hagree' other hne).symm
  · rw [hvalue]
    exact (Prod.Lex.toLex_lt_toLex.mpr (.inl hbot)).le
  · intro other hother hne
    rw [hvalue, hagree' other hne]
    exact Prod.Lex.toLex_lt_toLex.mpr (.inl (hranked.ordinary other ⟨hother, hne⟩).bot_lt)

section SetNextFireTime

variable [Zero α]

/-- The numbers of the active timers are less than `2 ^ 31 - 1` apart. -/
def Spread (base : κ → TimerBase α) : Prop :=
  ∀ a, (base a).isActive → ∀ b, (base b).isActive →
    (base a).heapInsertionOrder < (base b).heapInsertionOrder + (2 ^ 31 - 1)

instance [Fintype κ] (base : κ → TimerBase α) : Decidable (Spread base) :=
  inferInstanceAs (Decidable (∀ a, _ → ∀ b, _ → _))

/-- The heap holds the active timers, which are ranked. -/
structure Consistent (s : ThreadTimers κ α) : Prop where
  holds : s.timerHeap.Holds (key s.base) fun timer => (s.base timer).isActive
  ranked : Ranked s.base fun timer => (s.base timer).isActive
  lt : ∀ timer, (s.base timer).isActive →
    (s.base timer).heapInsertionOrder < s.currentHeapInsertionOrder

/-- The timer with a new time and number, before the heap is arranged. -/
def renumbered (s : ThreadTimers κ α) (timer : κ) (newTime : Double α) : κ → TimerBase α :=
  Function.update s.base timer
    { s.base timer with
      nextFireTime := newTime
      heapInsertionOrder := s.currentHeapInsertionOrder }

theorem eq_zero_iff {time : Double α} : time.eq .zero = true ↔ time = .zero := by
  cases time with
  | nan => exact ⟨nofun, nofun⟩
  | num a => exact decide_eq_true_iff.trans ⟨congrArg Double.num, Double.num.inj⟩

theorem isActive_iff {timer : TimerBase α} : timer.isActive ↔ timer.nextFireTime ≠ .zero := by
  rw [TimerBase.isActive, ← Bool.not_eq_true, eq_zero_iff.not]

theorem renumbered_self (s : ThreadTimers κ α) (timer : κ) (newTime : Double α) :
    s.renumbered timer newTime timer =
      { s.base timer with
        nextFireTime := newTime
        heapInsertionOrder := s.currentHeapInsertionOrder } :=
  Function.update_self _ _ _

variable {newTime : Double α} {other : κ}

theorem renumbered_of_ne (hne : other ≠ timer) : s.renumbered timer newTime other = s.base other :=
  Function.update_of_ne hne _ _

theorem isActive_renumbered_self :
    (s.renumbered timer newTime timer).isActive ↔ newTime ≠ .zero := by
  rw [isActive_iff, renumbered_self]

/-- The fields that `setNextFireTime` sets. -/
theorem base_setNextFireTime (newTime : Double α) : (s.setNextFireTime timer newTime).base =
      if (s.base timer).nextFireTime.eq newTime then s.base
      else s.renumbered timer newTime := by
  rw [setNextFireTime]
  split
  · rfl
  · split
    · rfl
    · split
      · exact base_heapPop _ _
      · split
        · rfl
        · exact base_heapPop _ _

theorem base_setNextFireTime_of_ne (hne : other ≠ timer) :
    (s.setNextFireTime timer newTime).base other = s.base other := by
  rw [base_setNextFireTime]
  split
  · rfl
  · exact renumbered_of_ne hne

theorem nextFireTime_setNextFireTime (newTime : Double α) :
    ((s.setNextFireTime timer newTime).base timer).nextFireTime = newTime := by
  rw [base_setNextFireTime]
  split
  · rename_i heq
    obtain ⟨x, hx, rfl⟩ := Double.eq_num_iff.mp heq
    exact hx
  · rw [renumbered_self]

variable (h : s.Consistent)

include h

/-- The timers stay ranked, the one that is set with the last number. -/
theorem Consistent.ranked_renumbered
    (hnew : newTime ≠ .zero → newTime.IsOrdinary) (hspread : Spread (s.renumbered timer newTime)) :
    Ranked (s.renumbered timer newTime) fun other =>
      (s.renumbered timer newTime other).isActive where
  ordinary := by
    intro other hother
    by_cases hne : other = timer
    · rw [hne] at hother ⊢
      rw [renumbered_self]
      exact hnew (isActive_renumbered_self.mp hother)
    · rw [renumbered_of_ne hne] at hother ⊢
      exact h.ranked.ordinary other hother
  ne := by
    intro a ha b hb hab
    by_cases hatimer : a = timer
    · have hbtimer : b ≠ timer := fun heq => hab (hatimer.trans heq.symm)
      rw [renumbered_of_ne hbtimer] at hb ⊢
      rw [hatimer, renumbered_self]
      exact (h.lt b hb).ne'
    · rw [renumbered_of_ne hatimer] at ha ⊢
      by_cases hbtimer : b = timer
      · rw [hbtimer, renumbered_self]
        exact (h.lt a ha).ne
      · rw [renumbered_of_ne hbtimer] at hb ⊢
        exact h.ranked.ne a ha b hb hab
  spread := hspread

/-- A timer that was active is brought to the end, with its new time. -/
theorem Consistent.popped (hactive : (s.base timer).isActive)
    (hranked : Ranked (s.renumbered timer newTime) fun other =>
      (s.renumbered timer newTime other).isActive)
    (s' : ThreadTimers κ α) (hbase : s'.base = s.renumbered timer newTime)
    (hheap : s'.timerHeap = s.timerHeap) :
    (s'.heapPop timer).timerHeap.Popped (key s'.base) (fun other => (s.base other).isActive)
      timer := by
  have hholds := h.holds
  rw [← hheap] at hholds
  refine popped_heapPop hholds hactive ?_ (h.ranked.ordinary timer hactive).bot_lt ?_
  · intro other hne
    rw [hbase]
    exact key_congr (renumbered_of_ne hne)
  · have hmember (other : κ) (hother : (s.base other).isActive ∧ other ≠ timer) :
        (s.renumbered timer newTime other).isActive := by
      rw [renumbered_of_ne hother.2]
      exact hother.1
    rw [hbase]
    exact ⟨fun a ha => hranked.ordinary a (hmember a ha),
      fun a ha b hb => hranked.ne a (hmember a ha) b (hmember b hb),
      fun a ha b hb => hranked.spread a (hmember a ha) b (hmember b hb)⟩

omit h in
/-- The members of the heap when a timer that was inactive is inserted. -/
theorem isActive_renumbered_iff (hnew : newTime ≠ .zero) (other : κ) :
    (s.base other).isActive ∨ other = timer ↔ (s.renumbered timer newTime other).isActive := by
  by_cases hne : other = timer
  · rw [hne, isActive_renumbered_self]
    exact iff_of_true (.inr rfl) hnew
  · rw [renumbered_of_ne hne]
    exact or_iff_left hne

omit h in
theorem isActive_renumbered_zero_iff (other : κ) :
    (s.base other).isActive ∧ other ≠ timer ↔ (s.renumbered timer .zero other).isActive := by
  by_cases hne : other = timer
  · rw [hne, isActive_renumbered_self]
    exact iff_of_false (fun h => h.2 rfl) (fun h => h rfl)
  · rw [renumbered_of_ne hne]
    exact and_iff_left hne

omit h in
theorem key_renumbered_of_ne (hne : other ≠ timer) :
    key (s.renumbered timer newTime) other = key s.base other :=
  key_congr (renumbered_of_ne hne)

/-- The heap holds the active timers. -/
theorem Consistent.holds_setNextFireTime (hne : (s.base timer).nextFireTime.eq newTime = false)
    (hranked : Ranked (s.renumbered timer newTime) fun other =>
      (s.renumbered timer newTime other).isActive) :
    (s.setNextFireTime timer newTime).timerHeap.Holds (key (s.renumbered timer newTime))
      fun other => (s.renumbered timer newTime other).isActive := by
  have hstays (hnew : newTime ≠ .zero) (other : κ) (hactive : (s.base timer).isActive) :
      (s.base other).isActive ↔ (s.renumbered timer newTime other).isActive := by
    rw [← isActive_renumbered_iff hnew]
    exact (or_iff_left_of_imp fun heq => heq ▸ hactive).symm
  rw [ThreadTimers.setNextFireTime]
  rw [hne, if_neg Bool.false_ne_true]
  split
  · -- the timer is started
    rename_i hold
    have hinactive : ¬(s.base timer).isActive := by
      rw [isActive_iff, not_not]
      exact eq_zero_iff.mp hold
    have hnew : newTime ≠ .zero := by
      rintro rfl
      exact Bool.false_ne_true (hne.symm.trans hold)
    have hheap : s.timerHeap.Holds (key (s.renumbered timer newTime)) fun other =>
        (s.base other).isActive :=
      h.holds.congr fun other hother => key_renumbered_of_ne fun heq => hinactive (heq ▸ hother)
    refine (hheap.insert hinactive (hranked.compares fun other hother => ?_)).congr_members
      (isActive_renumbered_iff hnew)
    rw [← isActive_renumbered_iff hnew]
    exact (mem_append.mp hother).imp (h.holds.mem_iff other).mp mem_singleton.mp
  · rename_i hold
    have hactive : (s.base timer).isActive := Bool.eq_false_of_not_eq_true hold
    split
    · -- the timer is stopped
      rename_i hzero
      obtain rfl := eq_zero_iff.mp hzero
      have hpopped := h.popped hactive hranked
        { s with
          base := s.renumbered timer .zero
          currentHeapInsertionOrder := s.currentHeapInsertionOrder + 1 } rfl rfl
      exact hpopped.removeLast.congr_members isActive_renumbered_zero_iff
    · rename_i hnot
      have hnew : newTime ≠ .zero := fun heq => hnot (eq_zero_iff.mpr heq)
      have hmember (other : κ) (hother : other ∈ s.timerHeap.timers) :
          (s.renumbered timer newTime other).isActive :=
        (hstays hnew other hactive).mp ((h.holds.mem_iff other).mp hother)
      split
      · -- the timer fires earlier
        rename_i hlt
        refine (h.holds.decreaseKey hactive (fun other => key_renumbered_of_ne) ?_
          (hranked.compares hmember)).congr_members fun other => hstays hnew other hactive
        have htime : (s.renumbered timer newTime timer).nextFireTime = newTime := by
          rw [renumbered_self]
        have hold := (h.ranked.ordinary timer hactive).eq_num
        have hnum := (hranked.ordinary timer (isActive_renumbered_self.mpr hnew)).eq_num
        rw [htime] at hnum
        rw [hnum, hold, Double.lt, decide_eq_true_iff] at hlt
        rw [key, htime]
        exact (Prod.Lex.toLex_lt_toLex.mpr (.inl hlt)).le
      · -- the timer fires later
        have hpopped := h.popped hactive hranked
          { s with
            base := s.renumbered timer newTime
            currentHeapInsertionOrder := s.currentHeapInsertionOrder + 1 } rfl rfl
        have hdecreased := hpopped.decreaseKey (hranked.compares fun other hother =>
          (hstays hnew other hactive).mp ((hpopped.mem_iff other).mp hother))
        rw [heapIncreaseKey, heapDecreaseKey]
        dsimp only
        rw [base_heapPop]
        exact hdecreased.congr_members fun other => hstays hnew other hactive

/-- The heap is kept in order. -/
theorem Consistent.setNextFireTime (hnew : newTime ≠ .zero → newTime.IsOrdinary)
    (hspread : Spread (s.setNextFireTime timer newTime).base) :
    (s.setNextFireTime timer newTime).Consistent := by
  cases heq : (s.base timer).nextFireTime.eq newTime with
  | true =>
    rw [ThreadTimers.setNextFireTime]
    rwa [heq]
  | false =>
    have hbase := @base_setNextFireTime _ _ _ _ _ s timer _ newTime
    rw [heq, if_neg Bool.false_ne_true] at hbase
    rw [hbase] at hspread
    have hranked := h.ranked_renumbered hnew hspread
    constructor
    · rw [hbase]
      exact h.holds_setNextFireTime heq hranked
    · rw [hbase]
      exact hranked
    · have hcurrent : (s.setNextFireTime timer newTime).currentHeapInsertionOrder =
          s.currentHeapInsertionOrder + 1 := by
        rw [ThreadTimers.setNextFireTime]
        rw [heq, if_neg Bool.false_ne_true]
        split
        · rfl
        · split
          · rfl
          · split <;> rfl
      rw [hbase, hcurrent]
      intro other hother
      by_cases hne : other = timer
      · rw [hne, renumbered_self]
        exact Nat.lt_succ_self _
      · rw [renumbered_of_ne hne] at hother ⊢
        exact (h.lt other hother).trans (Nat.lt_succ_self _)

/-- Fields that the order does not depend on. -/
theorem Consistent.congr {s' : ThreadTimers κ α} (hheap : s'.timerHeap = s.timerHeap)
    (hcurrent : s'.currentHeapInsertionOrder = s.currentHeapInsertionOrder)
    (hbase : ∀ timer, (s'.base timer).nextFireTime = (s.base timer).nextFireTime ∧
      (s'.base timer).heapInsertionOrder = (s.base timer).heapInsertionOrder) : s'.Consistent := by
  have hactive (timer : κ) : (s.base timer).isActive ↔ (s'.base timer).isActive := by
    rw [isActive_iff, isActive_iff, (hbase timer).1]
  constructor
  · rw [hheap]
    refine (h.holds.congr fun timer _ => ?_).congr_members hactive
    rw [key, key, (hbase timer).1, (hbase timer).2]
  · constructor
    · intro timer htimer
      rw [(hbase timer).1]
      exact h.ranked.ordinary timer ((hactive timer).mpr htimer)
    · intro a ha b hb
      rw [(hbase a).2, (hbase b).2]
      exact h.ranked.ne a ((hactive a).mpr ha) b ((hactive b).mpr hb)
    · intro a ha b hb
      rw [(hbase a).2, (hbase b).2]
      exact h.ranked.spread a ((hactive a).mpr ha) b ((hactive b).mpr hb)
  · intro timer htimer
    rw [(hbase timer).2, hcurrent]
    exact h.lt timer ((hactive timer).mpr htimer)

/-- The first timer, whose time is set to 0 before, is removed. -/
theorem Consistent.heapDeleteMin (hfirst : s.timerHeap.timers[0]? = some timer) :
    ((s.withNextFireTime timer .zero).heapDeleteMin timer).Consistent := by
  let s' := s.withNextFireTime timer .zero
  have hself : s'.base timer = { s.base timer with nextFireTime := .zero } :=
    base_withNextFireTime_self s timer .zero
  have hothers {other : κ} (hne : other ≠ timer) : s'.base other = s.base other :=
    base_withNextFireTime_of_ne hne
  have horder (other : κ) :
      (s'.base other).heapInsertionOrder = (s.base other).heapInsertionOrder := by
    by_cases hne : other = timer
    · rw [hne, hself]
    · rw [hothers hne]
  have hmember (other : κ) :
      (s.base other).isActive ∧ other ≠ timer ↔ (s'.base other).isActive := by
    by_cases hne : other = timer
    · rw [hne, @isActive_iff _ _ _ _ (s'.base timer), hself]
      exact iff_of_false (fun h => h.2 rfl) (fun h => h rfl)
    · rw [hothers hne]
      exact and_iff_left hne
  have hcompares : Compares (key s'.base) (lessThan s'.base) s.timerHeap.timers := by
    intro a ha b hb hne
    have hactive := (h.holds.mem_iff a).mp ha
    have hactive' := (h.holds.mem_iff b).mp hb
    refine lessThan_iff ⟨fun u hu => ?_, fun _ => ?_⟩
    · by_cases hutimer : u = timer
      · rw [hutimer, hself]
        rfl
      · rw [hothers hutimer]
        rcases mem_pair.mp hu with rfl | rfl
        · exact (h.ranked.ordinary _ hactive).eq_num
        · exact (h.ranked.ordinary _ hactive').eq_num
    · rw [horder, horder]
      exact ⟨h.ranked.ne a hactive b hactive' hne, h.ranked.spread a hactive b hactive',
        h.ranked.spread b hactive' a hactive⟩
  have hpopped := h.holds.poppedFirst hfirst (fun other hne => key_congr (hothers hne)) hcompares
  constructor
  · exact hpopped.removeLast.congr_members hmember
  · change Ranked s'.base fun other => (s'.base other).isActive
    constructor
    · intro other hother
      have hmem := (hmember other).mpr hother
      rw [hothers hmem.2]
      exact h.ranked.ordinary other hmem.1
    · intro a ha b hb
      rw [horder, horder]
      exact h.ranked.ne a ((hmember a).mpr ha).1 b ((hmember b).mpr hb).1
    · intro a ha b hb
      rw [horder, horder]
      exact h.ranked.spread a ((hmember a).mpr ha).1 b ((hmember b).mpr hb).1
  · intro other hother
    change (s'.base other).heapInsertionOrder < s.currentHeapInsertionOrder
    rw [horder]
    exact h.lt other ((hmember other).mpr hother).1

end SetNextFireTime

end ThreadTimers

end

end Platform
end WebKit
