import Mathlib.Algebra.Order.Monoid.Unbundled.WithTop
import WebKit.Platform.TimerOrder

/-!
# Runs of the timers

The callers start and stop timers in any order, also while the shared timer fires and from nested
event loops, whose activations of `sharedTimerFiredInternal` are on a stack.

* `EventLoop.step`: a call, a firing of the shared timer or the return of a callback.
* `Orderly`: the active timers are in the heap, the first to fire first.
* `FiresNext`: the timer that is due and comes first is called.
* `orderly_run`: the runs.
-/

namespace WebKit

open List
namespace Platform

open BinaryHeap

section

variable {κ α : Type*} [DecidableEq κ] [LinearOrder α] [OrderBot α] [Zero α]

/-! ## What is claimed of the timers -/

namespace ThreadTimers

variable {add : Double α → Double α → Double α} {timers : ThreadTimers κ α}

/-- A timer fires before another: earlier, or at the same time and started earlier. -/
def Precedes (base : κ → TimerBase α) (a b : κ) : Prop :=
  (base a).nextFireTime.lt (base b).nextFireTime = true ∨
    (base a).nextFireTime.eq (base b).nextFireTime = true ∧
      (base a).heapInsertionOrder < (base b).heapInsertionOrder

/-- The active timers are in a heap and know their positions, and the first comes before all. -/
structure Orderly (timers : ThreadTimers κ α) : Prop where
  mem_iff : ∀ timer, timer ∈ timers.timerHeap.timers ↔ (timers.base timer).isActive
  heapIndex : ∀ (i : ℕ) timer, timers.timerHeap.timers[i]? = some timer →
    timers.timerHeap.heapIndex timer = i
  isHeap : ∀ i ≠ 0, ∀ a, timers.timerHeap.timers[(i - 1) / 2]? = some a →
    ∀ b, timers.timerHeap.timers[i]? = some b → lessThan timers.base a b = false
  first : ∀ first, timers.timerHeap.timers.head? = some first →
    ∀ timer, (timers.base timer).isActive → timer ≠ first → Precedes timers.base first timer

variable (add) in
/-- The timer that is called is due and comes before all active ones, and there is one unless none is
due. -/
def FiresNext (timers : ThreadTimers κ α) (fireTime : Double α) : Prop :=
  match timers.fireFirst add fireTime with
  | some (_, timer) => (timers.base timer).isActive ∧
      (timers.base timer).nextFireTime.le fireTime = true ∧
      ∀ other, (timers.base other).isActive → other ≠ timer → Precedes timers.base timer other
  | none => ∀ timer, (timers.base timer).isActive →
      (timers.base timer).nextFireTime.le fireTime = false

omit [DecidableEq κ] [Zero α] in
theorem precedes_of_key_lt (ha : (timers.base a).nextFireTime.IsOrdinary)
    (hb : (timers.base b).nextFireTime.IsOrdinary) (h : key timers.base a < key timers.base b) :
    Precedes timers.base a b := by
  rw [key, key, Prod.Lex.toLex_lt_toLex] at h
  rw [Precedes, ha.eq_num, hb.eq_num, Double.lt, Double.eq, decide_eq_true_iff, decide_eq_true_iff]
  exact h

variable (h : timers.Consistent)

include h

/-- The first timer comes before the other active ones. -/
theorem key_first_lt
    (hfirst : timers.timerHeap.timers[0]? = some first) (hother : (timers.base other).isActive)
    (hne : other ≠ first) : key timers.base first < key timers.base other := by
  have hactive := (h.holds.mem_iff first).mp (mem_of_getElem? hfirst)
  obtain ⟨i, hi⟩ := mem_iff_getElem?.mp ((h.holds.mem_iff other).mpr hother)
  have hle := h.holds.isHeap.le le_rfl (List.getElem?_eq_some_iff.mp hi).1 hfirst hi
  refine lt_of_le_of_ne hle fun heq => ?_
  have horder := congrArg (fun k => (ofLex k).2) heq
  exact h.ranked.ne first hactive other hother hne.symm horder

theorem Consistent.orderly : Orderly timers where
  mem_iff := h.holds.mem_iff
  heapIndex := h.holds.placed
  isHeap := by
    intro i hi a ha b hb
    have hne : a ≠ b := ne_of_getElem? h.holds.nodup hb (Nat.ne_of_lt (parent_lt hi)) ha
    have hle := h.holds.isHeap i (List.getElem?_eq_some_iff.mp hb).1 hi a ha b hb
    rw [← Bool.not_eq_true,
      h.ranked.compares (fun other => (h.holds.mem_iff other).mp) a (mem_of_getElem? ha) b
        (mem_of_getElem? hb) hne]
    exact not_lt.mpr hle
  first := by
    intro first hfirst other hother hne
    rw [List.head?_eq_getElem?] at hfirst
    have hactive := (h.holds.mem_iff first).mp (mem_of_getElem? hfirst)
    exact precedes_of_key_lt (h.ranked.ordinary first hactive) (h.ranked.ordinary other hother)
      (key_first_lt h hfirst hother hne)

theorem Consistent.firesNext (fireTime : Double α) :
    FiresNext add timers fireTime := by
  rw [FiresNext, fireFirst]
  cases hfirst : timers.timerHeap.timers.head? with
  | none =>
    intro timer htimer
    have hmem := (h.holds.mem_iff timer).mpr htimer
    rw [List.head?_eq_none_iff.mp hfirst] at hmem
    cases hmem
  | some first =>
    have hget : timers.timerHeap.timers[0]? = some first := by
      rw [← List.head?_eq_getElem?, hfirst]
    have hactive := (h.holds.mem_iff first).mp (mem_of_getElem? hget)
    dsimp only
    cases hdue : (timers.base first).nextFireTime.le fireTime with
    | true =>
      exact ⟨hactive, hdue, h.orderly.first first hfirst⟩
    | false =>
      intro other hother
      by_cases hne : other = first
      · rw [hne, hdue]
      · have hle : (timers.base first).nextFireTime.value ≤
            (timers.base other).nextFireTime.value :=
          (Prod.Lex.toLex_lt_toLex.mp (key_first_lt h hget hother hne)).elim le_of_lt
            fun heq => heq.1.le
        rw [(h.ranked.ordinary first hactive).eq_num] at hdue
        rw [(h.ranked.ordinary other hother).eq_num]
        cases fireTime with
        | nan => rfl
        | num z =>
          rw [Double.le, decide_eq_false_iff_not] at hdue ⊢
          exact fun hother => hdue (hle.trans hother)

/-! ## Firing -/

/-- A time that a timer may be set to: 0, or neither NaN nor minus infinity. -/
def Settable (time : Double α) : Prop := time ≠ .zero → time.IsOrdinary

variable (add) in
/-- The first timer, if it is due and repeats, may be set to its next time. -/
def RepeatsSettable (timers : ThreadTimers κ α) (fireTime : Double α) : Prop :=
  ∀ timer, timers.timerHeap.timers.head? = some timer →
    (timers.base timer).nextFireTime.le fireTime = true →
      (timers.base timer).repeatInterval.eq .zero = false →
        Settable (add fireTime (timers.base timer).repeatInterval)

omit h in
theorem settable_zero : Settable (.zero : Double α) := fun h => absurd rfl h

variable {fireTime : Double α} {timer : κ} {timers' : ThreadTimers κ α}

omit h in
theorem fireFirst_some (h : timers.fireFirst add fireTime = some (timers', timer)) :
    timers.timerHeap.timers.head? = some timer ∧
      (timers.base timer).nextFireTime.le fireTime = true ∧
      timers' = ((timers.withNextFireTime timer .zero).heapDeleteMin timer).setNextFireTime timer
        (if (timers.base timer).repeatInterval.eq .zero then .zero
          else add fireTime (timers.base timer).repeatInterval) := by
  rw [fireFirst] at h
  split at h
  · cases h
  · rename_i first hfirst
    split at h
    · rename_i hdue
      obtain ⟨rfl, rfl⟩ := Prod.mk.inj (Option.some_inj.mp h)
      refine ⟨hfirst, hdue, ?_⟩
      have hinterval : (((timers.withNextFireTime first .zero).heapDeleteMin first).base
          first).repeatInterval = (timers.base first).repeatInterval := by
        rw [base_heapDeleteMin, base_withNextFireTime_self]
      rw [hinterval]
    · cases h

theorem Consistent.fireFirst (hsettable : RepeatsSettable add timers fireTime)
    (hfire : timers.fireFirst add fireTime = some (timers', timer))
    (hspread : Spread timers'.base) : timers'.Consistent := by
  obtain ⟨hfirst, hdue, rfl⟩ := fireFirst_some hfire
  have hget : timers.timerHeap.timers[0]? = some timer := by
    rw [← List.head?_eq_getElem?, hfirst]
  refine (h.heapDeleteMin hget).setNextFireTime ?_ hspread
  split
  · exact settable_zero
  · rename_i hrepeats
    exact hsettable timer hfirst hdue (Bool.eq_false_of_not_eq_true hrepeats)

omit h in
/-- What a firing leaves alone. -/
theorem fireFirst_base_of_ne
    (hfire : timers.fireFirst add fireTime = some (timers', timer)) (hne : other ≠ timer) :
    timers'.base other = timers.base other := by
  obtain ⟨-, -, rfl⟩ := fireFirst_some hfire
  rw [base_setNextFireTime_of_ne hne]
  exact base_withNextFireTime_of_ne hne

theorem Consistent.withFiringTimers (firing : Bool) :
    ({ timers with firingTimers := firing } : ThreadTimers κ α).Consistent :=
  h.congr rfl rfl fun _ => ⟨rfl, rfl⟩

omit h in
theorem Spread.of_withRepeatInterval {interval : Double α}
    (h : Spread (timers.withRepeatInterval timer interval).base) : Spread timers.base := by
  have hsame (other : κ) : ((timers.withRepeatInterval timer interval).base other).nextFireTime =
          (timers.base other).nextFireTime ∧
        ((timers.withRepeatInterval timer interval).base other).heapInsertionOrder =
          (timers.base other).heapInsertionOrder := by
    by_cases hne : other = timer
    · rw [hne, base_withRepeatInterval_self]
      exact ⟨rfl, rfl⟩
    · rw [base_withRepeatInterval_of_ne hne]
      exact ⟨rfl, rfl⟩
  intro a ha b hb
  rw [isActive_iff, ← (hsame a).1, ← isActive_iff] at ha
  rw [isActive_iff, ← (hsame b).1, ← isActive_iff] at hb
  rw [← (hsame a).2, ← (hsame b).2]
  exact h a ha b hb

theorem Consistent.withRepeatInterval (timer : κ) (interval : Double α) :
    (timers.withRepeatInterval timer interval).Consistent := by
  refine h.congr rfl rfl fun other => ?_
  by_cases hne : other = timer
  · rw [hne, base_withRepeatInterval_self]
    exact ⟨rfl, rfl⟩
  · rw [base_withRepeatInterval_of_ne hne]
    exact ⟨rfl, rfl⟩

end ThreadTimers

/-! ## The event loop -/

/-- The timers, with the fire times of the activations of `sharedTimerFiredInternal`. -/
structure EventLoop (κ α : Type*) where
  timers : ThreadTimers κ α
  frames : List (Double α)

inductive Action (κ α : Type*) where
  | start (timer : κ) (nextFireInterval repeatInterval now : Double α)
  | stop (timer : κ)
  | augmentFireInterval (timer : κ) (delta : Double α)
  | augmentRepeatInterval (timer : κ) (delta : Double α)
  | sharedTimerFired (now : Double α)
  /-- The callback that was called last returns. -/
  | returned (timeIsUp : Bool)
  | fireTimersInNestedEventLoop

/-- The calls that may start a timer. -/
def Action.Starts (timer : κ) : Action κ α → Prop
  | .start other _ _ _ => other = timer
  | .augmentFireInterval other _ => other = timer
  | .augmentRepeatInterval other _ => other = timer
  | _ => False

namespace EventLoop

open ThreadTimers

variable (κ α) in
def initial : EventLoop κ α := ⟨.initial κ α, []⟩

variable (add : Double α → Double α → Double α) (s : EventLoop κ α)

/-- The loop of `sharedTimerFiredInternal` up to the next call, or its end. -/
def iterate (fireTime : Double α) : EventLoop κ α × Option κ :=
  match s.timers.fireFirst add fireTime with
  | some (timers, timer) => (⟨timers, fireTime :: s.frames⟩, some timer)
  | none => (⟨{ s.timers with firingTimers := false }, s.frames⟩, none)

/-- A step, with the timer that is called. -/
def step : Action κ α → EventLoop κ α × Option κ
  | .start timer nextFireInterval repeatInterval now =>
    (⟨s.timers.start timer add nextFireInterval repeatInterval now, s.frames⟩, none)
  | .stop timer => (⟨s.timers.stop timer, s.frames⟩, none)
  | .augmentFireInterval timer delta =>
    (⟨s.timers.augmentFireInterval timer add delta, s.frames⟩, none)
  | .augmentRepeatInterval timer delta =>
    (⟨s.timers.augmentRepeatInterval timer add delta, s.frames⟩, none)
  | .sharedTimerFired now =>
    if s.timers.firingTimers then (s, none)
    else iterate add ⟨{ s.timers with firingTimers := true }, s.frames⟩ now
  | .returned timeIsUp =>
    match s.frames with
    | [] => (s, none)
    | fireTime :: frames =>
      if !s.timers.firingTimers || timeIsUp then
        (⟨{ s.timers with firingTimers := false }, frames⟩, none)
      else iterate add ⟨s.timers, frames⟩ fireTime
  | .fireTimersInNestedEventLoop => (⟨{ s.timers with firingTimers := false }, s.frames⟩, none)

/-- A run, with the steps and the timers that they call.  The numbers of the active timers stay less
than `2 ^ 31 - 1` apart. -/
inductive Run (meets : EventLoop κ α → Action κ α → Prop) :
    List (Action κ α × Option κ) → EventLoop κ α → Prop
  | initial : Run meets [] (initial κ α)
  | step {trace : List (Action κ α × Option κ)} {s : EventLoop κ α} (h : Run meets trace s)
      (action : Action κ α) (hmeets : meets s action)
      (hspread : Spread (s.step add action).1.timers.base) :
      Run meets (trace ++ [(action, (s.step add action).2)]) (s.step add action).1

/-! ## The steps -/

variable {add : Double α → Double α → Double α}

variable (add) in
/-- The times that the step sets are settable. -/
def MeetsTimes (s : EventLoop κ α) : Action κ α → Prop
  | .start _ nextFireInterval _ now => Settable (add now nextFireInterval)
  | .stop _ => True
  | .augmentFireInterval timer delta | .augmentRepeatInterval timer delta =>
    Settable (add (s.timers.base timer).nextFireTime delta)
  | .sharedTimerFired now => s.timers.firingTimers = false → RepeatsSettable add s.timers now
  | .returned timeIsUp => timeIsUp = false → s.timers.firingTimers = true →
    ∀ fireTime, s.frames.head? = some fireTime → RepeatsSettable add s.timers fireTime
  | .fireTimersInNestedEventLoop => True

variable {fireTime : Double α} {action : Action κ α} {timer : κ}

theorem consistent_iterate {s : EventLoop κ α} (h : s.timers.Consistent)
    (hsettable : RepeatsSettable add s.timers fireTime)
    (hspread : Spread (s.iterate add fireTime).1.timers.base) :
    (s.iterate add fireTime).1.timers.Consistent := by
  rw [EventLoop.iterate] at hspread ⊢
  cases hfire : s.timers.fireFirst add fireTime with
  | none => exact h.withFiringTimers false
  | some fired =>
    rw [hfire] at hspread
    exact h.fireFirst hsettable hfire hspread

/-- Each step keeps the heap in order. -/
theorem consistent_step {s : EventLoop κ α} (h : s.timers.Consistent)
    (hmeets : MeetsTimes add s action) (hspread : Spread (s.step add action).1.timers.base) :
    (s.step add action).1.timers.Consistent := by
  cases action with
  | start timer nextFireInterval repeatInterval now =>
    exact (h.withRepeatInterval timer repeatInterval).setNextFireTime hmeets hspread
  | stop timer => exact (h.withRepeatInterval timer .zero).setNextFireTime settable_zero hspread
  | augmentFireInterval timer delta => exact h.setNextFireTime hmeets hspread
  | augmentRepeatInterval timer delta =>
    exact Consistent.withRepeatInterval
      (h.setNextFireTime hmeets (Spread.of_withRepeatInterval hspread)) timer _
  | sharedTimerFired now =>
    rw [EventLoop.step] at hspread ⊢
    split
    · exact h
    · rename_i hfiring
      rw [if_neg hfiring] at hspread
      exact consistent_iterate (h.withFiringTimers true)
        (hmeets (Bool.eq_false_of_not_eq_true hfiring)) hspread
  | returned timeIsUp =>
    rw [EventLoop.step] at hspread ⊢
    split
    · exact h
    · rename_i fireTime frames hframes
      rw [hframes] at hspread
      dsimp only at hspread
      split
      · exact h.withFiringTimers false
      · rename_i hgoes
        rw [if_neg hgoes] at hspread
        have hgoes' : s.timers.firingTimers = true ∧ timeIsUp = false := by simpa using hgoes
        exact consistent_iterate (s := ⟨s.timers, frames⟩) h
          (hmeets hgoes'.2 hgoes'.1 fireTime (by rw [hframes]; rfl)) hspread
  | fireTimersInNestedEventLoop => exact h.withFiringTimers false

theorem consistent_initial : (initial κ α).timers.Consistent := by
  have hinactive (timer : κ) : ¬((initial κ α).timers.base timer).isActive := by
    rw [isActive_iff, not_not]
    rfl
  constructor
  · exact {
      nodup := nodup_nil
      placed := fun i a ha => absurd ha (by simp [TimerHeap.iterator, initial, ThreadTimers.initial])
      absent := fun _ _ => rfl
      mem_iff := fun timer => iff_of_false not_mem_nil (hinactive timer)
      isHeap := fun i hi => absurd hi (Nat.not_lt_zero i) }
  · exact ⟨fun a ha => absurd ha (hinactive a), fun a ha => absurd ha (hinactive a),
      fun a ha => absurd ha (hinactive a)⟩
  · exact fun a ha => absurd ha (hinactive a)

variable {trace : List (Action κ α × Option κ)}

theorem consistent_run {s : EventLoop κ α}
    (h : Run add (MeetsTimes add) trace s) : s.timers.Consistent := by
  induction h with
  | initial => exact consistent_initial
  | step _ action hmeets hspread ih => exact consistent_step ih hmeets hspread

/-! ## Timers that are stopped -/

theorem head?_of_iterate {s : EventLoop κ α} (hcalled : (s.iterate add fireTime).2 = some timer) :
    s.timers.timerHeap.timers.head? = some timer := by
  rw [iterate] at hcalled
  cases hfire : s.timers.fireFirst add fireTime with
  | none =>
    rw [hfire] at hcalled
    cases hcalled
  | some fired =>
    rw [hfire] at hcalled
    obtain rfl := Option.some_inj.mp hcalled
    exact (fireFirst_some hfire).1

/-- The timer that is called is the first. -/
theorem head?_of_step {s : EventLoop κ α} (hcalled : (s.step add action).2 = some timer) :
    s.timers.timerHeap.timers.head? = some timer := by
  cases action with
  | start | stop | augmentFireInterval | augmentRepeatInterval | fireTimersInNestedEventLoop =>
    cases hcalled
  | sharedTimerFired now =>
    rw [step] at hcalled
    split at hcalled
    · cases hcalled
    · exact head?_of_iterate (s := ⟨{ s.timers with firingTimers := true }, s.frames⟩) hcalled
  | returned timeIsUp =>
    rw [step] at hcalled
    split at hcalled
    · cases hcalled
    · rename_i fireTime frames hframes
      split at hcalled
      · cases hcalled
      · exact head?_of_iterate (s := ⟨s.timers, frames⟩) hcalled

/-- A timer that is called is active before. -/
theorem isActive_of_step {s : EventLoop κ α} (h : s.timers.Consistent)
    (hcalled : (s.step add action).2 = some timer) : (s.timers.base timer).isActive :=
  (h.holds.mem_iff timer).mp (mem_of_head? (head?_of_step hcalled))

theorem base_iterate {s : EventLoop κ α} (h : s.timers.Consistent)
    (hinactive : ¬(s.timers.base timer).isActive) :
    (s.iterate add fireTime).1.timers.base timer = s.timers.base timer := by
  rw [iterate]
  cases hfire : s.timers.fireFirst add fireTime with
  | none => rfl
  | some fired =>
    refine fireFirst_base_of_ne hfire fun heq => hinactive ?_
    exact (h.holds.mem_iff timer).mp (mem_of_head? (heq ▸ (fireFirst_some hfire).1))

/-- A step that does not start an inactive timer leaves it inactive. -/
theorem not_isActive_step {s : EventLoop κ α} (h : s.timers.Consistent)
    (hinactive : ¬(s.timers.base timer).isActive) (hstarts : ¬action.Starts timer) :
    ¬((s.step add action).1.timers.base timer).isActive := by
  cases action with
  | start other nextFireInterval repeatInterval now =>
    have hne : timer ≠ other := fun heq => hstarts heq.symm
    change ¬(((s.timers.withRepeatInterval other repeatInterval).setNextFireTime other _).base
      timer).isActive
    rwa [base_setNextFireTime_of_ne hne, base_withRepeatInterval_of_ne hne]
  | stop other =>
    change ¬(((s.timers.withRepeatInterval other .zero).setNextFireTime other .zero).base
      timer).isActive
    by_cases hne : timer = other
    · rw [hne, isActive_iff, not_not]
      exact nextFireTime_setNextFireTime _
    · rwa [base_setNextFireTime_of_ne hne, base_withRepeatInterval_of_ne hne]
  | augmentFireInterval other delta =>
    have hne : timer ≠ other := fun heq => hstarts heq.symm
    change ¬((s.timers.setNextFireTime other _).base timer).isActive
    rwa [base_setNextFireTime_of_ne hne]
  | augmentRepeatInterval other delta =>
    have hne : timer ≠ other := fun heq => hstarts heq.symm
    change ¬(((s.timers.setNextFireTime other _).withRepeatInterval other _).base timer).isActive
    rwa [base_withRepeatInterval_of_ne hne, base_setNextFireTime_of_ne hne]
  | sharedTimerFired now =>
    rw [step]
    split
    · exact hinactive
    · rwa [base_iterate (s := ⟨{ s.timers with firingTimers := true }, s.frames⟩)
        (h.withFiringTimers true) hinactive]
  | returned timeIsUp =>
    rw [step]
    split
    · exact hinactive
    · split
      · exact hinactive
      · rename_i frames _ _
        rwa [base_iterate (s := ⟨s.timers, frames⟩) h hinactive]
  | fireTimersInNestedEventLoop => exact hinactive

/-- A timer that is stopped is inactive and not called until it is started. -/
theorem not_called_run {s : EventLoop κ α} (h : Run add (MeetsTimes add) trace s)
    {after : List (Action κ α × Option κ)}
    (htrace : trace = before ++ (.stop timer, called) :: after)
    (hstarts : ∀ entry ∈ after, ¬entry.1.Starts timer) :
    ¬(s.timers.base timer).isActive ∧ ∀ entry ∈ after, entry.2 ≠ some timer := by
  induction h generalizing after with
  | initial => cases before <;> cases htrace
  | @step trace s hrun action hmeets hspread ih =>
    rcases eq_nil_or_concat after with rfl | ⟨after, entry, rfl⟩
    · obtain ⟨-, hentry⟩ := append_inj' htrace rfl
      obtain ⟨rfl, -⟩ := Prod.mk.inj (List.cons.inj hentry).1
      refine ⟨?_, fun entry hentry => absurd hentry not_mem_nil⟩
      rw [isActive_iff, not_not]
      exact nextFireTime_setNextFireTime _
    · rw [concat_eq_append, ← cons_append, ← append_assoc] at htrace
      obtain ⟨hbefore, hentry⟩ := append_inj' htrace rfl
      obtain rfl := (List.cons.inj hentry).1
      rw [concat_eq_append, forall_mem_append, forall_mem_singleton] at hstarts
      obtain ⟨hinactive, hcalled⟩ := ih hbefore hstarts.1
      have hconsistent := consistent_run hrun
      refine ⟨not_isActive_step hconsistent hinactive hstarts.2, ?_⟩
      rw [concat_eq_append, forall_mem_append, forall_mem_singleton]
      exact ⟨hcalled, fun heq => hinactive (isActive_of_step hconsistent heq)⟩

/-- In every run that sets settable times, the timers are in order, the next timer is called, and a
timer that is stopped is not called. -/
theorem orderly_run {s : EventLoop κ α} (h : Run add (MeetsTimes add) trace s) :
    Orderly s.timers ∧ (∀ fireTime, FiresNext add s.timers fireTime) ∧
      ∀ timer called before after, trace = before ++ (.stop timer, called) :: after →
        (∀ entry ∈ after, ¬entry.1.Starts timer) → ∀ entry ∈ after, entry.2 ≠ some timer :=
  ⟨(consistent_run h).orderly, (consistent_run h).firesNext,
    fun _ _ _ _ htrace hstarts => (not_called_run h htrace hstarts).2⟩

end EventLoop

end

/-! Two timers, whose times are integers or minus infinity. -/

def addIntegers : Double (WithBot ℤ) → Double (WithBot ℤ) → Double (WithBot ℤ)
  | .num a, .num b => .num (a + b)
  | _, _ => .nan

open EventLoop ThreadTimers

theorem settable_num {a : WithBot ℤ} (h : a ≠ ⊥) : Settable (.num a) := fun _ => ⟨a, rfl, h⟩

/-- The second timer is called, and the first, which repeats, is stopped by the callback. -/
theorem orderly_run_two :
    ∃ (trace : List (Action Bool (WithBot ℤ) × Option Bool)) (s : EventLoop Bool (WithBot ℤ)),
      trace.map Prod.snd = [none, none, some true, none, none] ∧ Orderly s.timers ∧
      (∀ fireTime, FiresNext addIntegers s.timers fireTime) ∧
      ∀ timer called before after, trace = before ++ (.stop timer, called) :: after →
        (∀ entry ∈ after, ¬entry.1.Starts timer) → ∀ entry ∈ after, entry.2 ≠ some timer := by
  have started : Run addIntegers (MeetsTimes addIntegers) _ _ :=
    .step (.step .initial (.start false (.num 4) (.num 2) (.num 1)) (settable_num (by decide))
      (by decide +kernel)) (.start true (.num 2) .zero (.num 1)) (settable_num (by decide))
      (by decide +kernel)
  have called := started.step (.sharedTimerFired (.num 4)) (by
    intro _ timer htimer _ hrepeats
    cases timer with
    | false => exact absurd htimer (by decide +kernel)
    | true => exact absurd hrepeats (by decide +kernel)) (by decide +kernel)
  have returned := (called.step (.stop false) trivial (by decide +kernel)).step (.returned false)
    (by
      intro _ _ fireTime _ timer htimer
      cases timer with
      | false => exact absurd htimer (by decide +kernel)
      | true => exact absurd htimer (by decide +kernel)) (by decide +kernel)
  exact ⟨_, _, by decide +kernel, orderly_run returned⟩

/-- A timer that is stopped takes the first one, which has the time minus infinity, out of the heap. -/
theorem not_orderly_forced :
    ∃ (trace : List (Action Bool (WithBot ℤ) × Option Bool)) (s : EventLoop Bool (WithBot ℤ)),
      Run addIntegers (fun _ _ => True) trace s ∧ ¬Orderly s.timers := by
  refine ⟨_, _, .step (.step (.step .initial (.start false .negInfinity .zero .zero) trivial ?_)
    (.start true (.num 5) .zero .zero) trivial ?_) (.stop true) trivial ?_, fun h => ?_⟩
  · decide +kernel
  · decide +kernel
  · decide +kernel
  · have hactive := (h.mem_iff true).mp (by decide +kernel)
    revert hactive
    decide +kernel

end Platform
end WebKit
