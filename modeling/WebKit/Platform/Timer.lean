import Mathlib.Data.UInt
import WebKit.Library.BinaryHeap

/-!
# Timers

`TimerBase` and `ThreadTimers`.  The active timers are in a heap, the one that fires next first, and
the standard library's algorithms arrange them through references that keep the timers' indices.

A time is NaN or a number of any linear order with a least element, which is minus infinity, and with
a zero.  What is added is a parameter.  The shared timer, which may fire at any time, is left out.

* `TimerHeap`: the heap with the indices.
* `lessThan`: `TimerHeapLessThanFunction`.
* `setNextFireTime`: starts, stops and moves a timer.
* `fireFirst`: one iteration of `sharedTimerFiredInternal`, up to the call.
-/

namespace WebKit

open Function
namespace Platform

/-! ## Times -/

inductive Double (α : Type*) where
  | nan
  | num (a : α)

namespace Double

variable {α : Type*}

section

variable [LinearOrder α]

/-- The comparisons with NaN are false. -/
def eq : Double α → Double α → Bool
  | num a, num b => decide (a = b)
  | _, _ => false

def lt : Double α → Double α → Bool
  | num a, num b => decide (a < b)
  | _, _ => false

def le : Double α → Double α → Bool
  | num a, num b => decide (a ≤ b)
  | _, _ => false

end

def zero [Zero α] : Double α := num 0

def negInfinity [LinearOrder α] [OrderBot α] : Double α := num ⊥

end Double

/-! ## The heap -/

/-- The array of the timers, and the `m_heapIndex` of each timer. -/
structure TimerHeap (κ : Type*) where
  timers : List κ
  heapIndex : κ → ℤ

namespace TimerHeap

variable {κ : Type*} [DecidableEq κ]

/-- The assignment to a `TimerHeapReference`. -/
def assign (heap : TimerHeap κ) (i : ℕ) (timer : κ) : TimerHeap κ where
  timers := heap.timers.set i timer
  heapIndex := if i < heap.timers.length then update heap.heapIndex timer i
    else heap.heapIndex

variable (κ) in
/-- What a `TimerHeapIterator` gives to the algorithms. -/
def iterator : BinaryHeap.Container (TimerHeap κ) κ where
  elements := timers
  index := heapIndex
  assign := assign
  elements_assign := fun _ _ _ => rfl
  index_assign_self := by
    intro heap i timer h
    rw [assign]
    dsimp only
    rw [if_pos h, update_self]
  index_assign_ne := by
    intro heap i timer other h
    rw [assign]
    dsimp only
    split
    · rw [update_of_ne h]
    · rfl

variable (heap : TimerHeap κ)

def pushHeap (less : κ → κ → Bool) (len : ℕ) : TimerHeap κ :=
  BinaryHeap.pushHeap (iterator κ) less heap len

def popHeap (less : κ → κ → Bool) (len : ℕ) : TimerHeap κ :=
  BinaryHeap.popHeap (iterator κ) less heap len

def append (timer : κ) : TimerHeap κ where
  timers := heap.timers ++ [timer]
  heapIndex := update heap.heapIndex timer heap.timers.length

theorem heapIndex_append (timer : κ) :
    (heap.append timer).heapIndex = update heap.heapIndex timer heap.timers.length := rfl

/-- `removeLast`, and the index of a timer that is not in the heap. -/
def removeLast (timer : κ) : TimerHeap κ where
  timers := heap.timers.dropLast
  heapIndex := update heap.heapIndex timer (-1)

theorem heapIndex_removeLast (timer : κ) :
    (heap.removeLast timer).heapIndex = update heap.heapIndex timer (-1) := rfl

end TimerHeap

/-! ## Timers -/

/-- The next fire time is 0 where the timer is inactive.  The insertion order counts on, and is an
`unsigned` where it is read. -/
structure TimerBase (α : Type*) where
  nextFireTime : Double α
  repeatInterval : Double α
  heapInsertionOrder : ℕ

def TimerBase.isActive {α : Type*} [LinearOrder α] [Zero α] (timer : TimerBase α) : Prop :=
  timer.nextFireTime.eq .zero = false

instance {α : Type*} [LinearOrder α] [Zero α] (timer : TimerBase α) : Decidable timer.isActive :=
  inferInstanceAs (Decidable (_ = false))

/-- The timers of a thread, with the numbers given out so far. -/
structure ThreadTimers (κ α : Type*) where
  base : κ → TimerBase α
  timerHeap : TimerHeap κ
  currentHeapInsertionOrder : ℕ
  firingTimers : Bool

section

variable {κ α : Type*} [DecidableEq κ] [LinearOrder α] [OrderBot α] [Zero α]

/-- `TimerHeapLessThanFunction` -/
def lessThan (base : κ → TimerBase α) (a b : κ) : Bool :=
  if !(base b).nextFireTime.eq (base a).nextFireTime then
    (base b).nextFireTime.lt (base a).nextFireTime
  else
    decide (UInt32.ofNat (base a).heapInsertionOrder - UInt32.ofNat (base b).heapInsertionOrder <
      0xFFFFFFFF / 2)

namespace ThreadTimers

variable (κ α) in
def initial : ThreadTimers κ α where
  base := fun _ => ⟨.zero, .zero, 0⟩
  timerHeap := ⟨[], fun _ => -1⟩
  currentHeapInsertionOrder := 0
  firingTimers := false

variable (s : ThreadTimers κ α) (timer : κ)

/-- An assignment to the field alone. -/
def withNextFireTime (time : Double α) : ThreadTimers κ α :=
  { s with base := update s.base timer { s.base timer with nextFireTime := time } }

def withRepeatInterval (interval : Double α) : ThreadTimers κ α :=
  { s with base := update s.base timer { s.base timer with repeatInterval := interval } }

def heapDecreaseKey : ThreadTimers κ α :=
  let heapIndex := (s.timerHeap.heapIndex timer).toNat
  { s with timerHeap := s.timerHeap.pushHeap (lessThan s.base) (heapIndex + 1) }

def heapPopMin : ThreadTimers κ α :=
  { s with timerHeap := s.timerHeap.popHeap (lessThan s.base) s.timerHeap.timers.length }

/-- The timer is forced to the minimum for a while. -/
def heapPop : ThreadTimers κ α :=
  (((s.withNextFireTime timer .negInfinity).heapDecreaseKey timer).heapPopMin).withNextFireTime timer
    (s.base timer).nextFireTime

def heapDelete : ThreadTimers κ α :=
  let s' := s.heapPop timer
  { s' with timerHeap := s'.timerHeap.removeLast timer }

def heapDeleteMin : ThreadTimers κ α :=
  let s' := s.heapPopMin
  { s' with timerHeap := s'.timerHeap.removeLast timer }

def heapIncreaseKey : ThreadTimers κ α := (s.heapPop timer).heapDecreaseKey timer

def heapInsert : ThreadTimers κ α :=
  let s' : ThreadTimers κ α := { s with timerHeap := s.timerHeap.append timer }
  s'.heapDecreaseKey timer

def setNextFireTime (newTime : Double α) : ThreadTimers κ α :=
  let oldTime := (s.base timer).nextFireTime
  if oldTime.eq newTime then s
  else
    let s' : ThreadTimers κ α := { s with
      base := update s.base timer { s.base timer with
        nextFireTime := newTime
        heapInsertionOrder := s.currentHeapInsertionOrder }
      currentHeapInsertionOrder := s.currentHeapInsertionOrder + 1 }
    if oldTime.eq .zero then s'.heapInsert timer
    else if newTime.eq .zero then s'.heapDelete timer
    else if newTime.lt oldTime then s'.heapDecreaseKey timer
    else s'.heapIncreaseKey timer

/-! ## What callers call -/

variable (add : Double α → Double α → Double α)

def start (nextFireInterval repeatInterval now : Double α) : ThreadTimers κ α :=
  (s.withRepeatInterval timer repeatInterval).setNextFireTime timer (add now nextFireInterval)

def stop : ThreadTimers κ α := (s.withRepeatInterval timer .zero).setNextFireTime timer .zero

def augmentFireInterval (delta : Double α) : ThreadTimers κ α :=
  s.setNextFireTime timer (add (s.base timer).nextFireTime delta)

def augmentRepeatInterval (delta : Double α) : ThreadTimers κ α :=
  let s' := s.augmentFireInterval timer add delta
  s'.withRepeatInterval timer (add (s'.base timer).repeatInterval delta)

/-- The iteration of the loop of `sharedTimerFiredInternal`, up to the call of `fired`: the timer that
is called, if one is due. -/
def fireFirst (fireTime : Double α) : Option (ThreadTimers κ α × κ) :=
  match s.timerHeap.timers.head? with
  | none => none
  | some timer =>
    if (s.base timer).nextFireTime.le fireTime then
      let s' := (s.withNextFireTime timer .zero).heapDeleteMin timer
      let interval := (s'.base timer).repeatInterval
      some (s'.setNextFireTime timer
        (if interval.eq .zero then .zero else add fireTime interval), timer)
    else none

end ThreadTimers

end

end Platform
end WebKit
