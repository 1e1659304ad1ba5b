/-
The event loop (`render-core/src/event_loop.rs`): tasks, microtasks, timers and rendering decisions.

The payloads are opaque, so the loop is generic in them. A `Duration` is a number of nanoseconds up to `durationMax`, an
identifier is a number below `2^64`. A `BTreeMap` is a `SortedMap`, a `VecDeque` a list.

A turn hands each runnable to `execute`, which may do anything that the public functions of the loop and of the DOM can
do. What happens is kept in a `trace` beside the loop and the DOM (`Session`); the trace is not in the source and the
functions of the loop do not read it.
-/
import Render.Core.SortedMap
import Render.Dom.Run

namespace Render.Events

open Render.Core

/-! ## Identifiers, limits and errors -/

abbrev Duration := ℕ
abbrev TaskId := ℕ
abbrev MicrotaskId := ℕ
abbrev TimerId := ℕ

/-- `Duration::MAX`, in nanoseconds -/
def durationMax : ℕ := u64Max * 10 ^ 9 + 999999999

inductive TaskSource where
  | domManipulation
  | userInteraction
  | networking
  | historyTraversal
  | postedMessage
  | timer
  | performanceTimeline
deriving DecidableEq

structure EventLoopLimits where
  maxPendingTasks : ℕ
  maxPendingTimers : ℕ
  maxPendingMicrotasks : ℕ
  maxMicrotasksPerCheckpoint : ℕ
deriving DecidableEq

def EventLoopLimits.default : EventLoopLimits := ⟨4096, 4096, 4096, 100000⟩

inductive QueueError where
  | taskCapacityReached (limit : ℕ)
  | timerCapacityReached (limit : ℕ)
  | microtaskCapacityReached (limit : ℕ)
  | identifierSpaceExhausted
  | timerDeadlineOverflow
deriving DecidableEq

inductive ClockError where
  | wouldMoveBackwards (current requested : Duration)
  | overflow
deriving DecidableEq

/-- `checked_add` of durations -/
def addDurations (a b : Duration) : Option Duration := if a + b ≤ durationMax then some (a + b) else none

/-! ## Work -/

structure ScheduledTask (T : Type) where
  id : TaskId
  source : TaskSource
  payload : T

structure ScheduledMicrotask (T : Type) where
  id : MicrotaskId
  payload : T

/-- the deadline and the id of a timer, ordered in this order -/
structure TimerKey where
  deadline : Duration
  id : TimerId
deriving DecidableEq

instance : LinearOrder TimerKey :=
  LinearOrder.lift' (fun key => toLex (key.deadline, key.id)) fun a b h => by
    cases a
    cases b
    cases h
    rfl

theorem TimerKey.lt_iff {a b : TimerKey} : a < b ↔ a.deadline < b.deadline ∨ (a.deadline = b.deadline ∧ a.id < b.id) :=
  Prod.Lex.toLex_lt_toLex

inductive Runnable (T : Type) where
  | task (id : TaskId) (source : TaskSource) (payload : T)
  | microtask (id : MicrotaskId) (payload : T)

/-- how the microtasks behind a task end; `resourceLimitReached` drops those that are left -/
inductive MicrotaskCheckpoint where
  | complete (executed : ℕ)
  | resourceLimitReached (executed discarded : ℕ)
deriving DecidableEq

inductive RenderingDecision where
  | noChange
  | incremental (batch : MutationBatch)
  | fullRefresh (fromRevision toRevision : DomRevision) (cause : MutationHistoryError)

structure TurnOutcome where
  task : TaskId × TaskSource
  microtasks : MicrotaskCheckpoint
  renderingAt : Duration
  decision : RenderingDecision

/-! ## The loop -/

structure EventLoop (T : Type) where
  limits : EventLoopLimits
  now : Duration
  readyTasks : List (ScheduledTask T)
  microtasks : List (ScheduledMicrotask T)
  timers : SortedMap TimerKey (ScheduledTask T)
  nextTaskId : TaskId
  nextMicrotaskId : MicrotaskId
  nextTimerId : TimerId
  renderingRevision : DomRevision

namespace EventLoop

variable {T : Type} (l : EventLoop T)

def withLimits (dom : Dom) (limits : EventLoopLimits) : EventLoop T where
  limits := limits
  now := 0
  readyTasks := []
  microtasks := []
  timers := .empty
  nextTaskId := 0
  nextMicrotaskId := 0
  nextTimerId := 0
  renderingRevision := dom.mutationRevision

def pendingTaskCount : ℕ := l.readyTasks.length + l.timers.size

def ensureTaskCapacity : Except QueueError Unit :=
  refuse (l.pendingTaskCount ≥ l.limits.maxPendingTasks) (.taskCapacityReached l.limits.maxPendingTasks)

/-- the identifier that `next` gives, and the one after it -/
def allocateId (next : ℕ) : Except QueueError (ℕ × ℕ) :=
  if next + 1 ≤ u64Max then .ok (next, next + 1) else .error .identifierSpaceExhausted

def queueTask (source : TaskSource) (payload : T) : Except QueueError (TaskId × EventLoop T) := do
  l.ensureTaskCapacity
  let (id, nextTaskId) ← allocateId l.nextTaskId
  return (id, { l with nextTaskId, readyTasks := l.readyTasks ++ [⟨id, source, payload⟩] })

def queueMicrotask (payload : T) : Except QueueError (MicrotaskId × EventLoop T) := do
  refuse (l.microtasks.length ≥ l.limits.maxPendingMicrotasks)
    (QueueError.microtaskCapacityReached l.limits.maxPendingMicrotasks)
  let (id, nextMicrotaskId) ← allocateId l.nextMicrotaskId
  return (id, { l with nextMicrotaskId, microtasks := l.microtasks ++ [⟨id, payload⟩] })

/-- the deadline of a timer that is set now -/
def deadlineAfter (delay : Duration) : Except QueueError Duration :=
  match addDurations l.now delay with
  | some deadline => .ok deadline
  | none => .error .timerDeadlineOverflow

/-- the timer that `set_timeout` sets: its key, its task and the loop with it -/
structure TimerSet (T : Type) where
  key : TimerKey
  task : TaskId
  loop : EventLoop T

/-- the result of `set_timeout`, and the loop: an identifier for the task is used up when there is none for the timer -/
def setTimeout (delay : Duration) (payload : T) : Except QueueError (TimerSet T) × EventLoop T :=
  match checked with
  | .error error => (.error error, l)
  | .ok (deadline, taskId, nextTaskId) =>
    match allocateId l.nextTimerId with
    | .error error => (.error error, { l with nextTaskId })
    | .ok (timerId, nextTimerId) =>
      let key : TimerKey := ⟨deadline, timerId⟩
      let next := { l with nextTaskId, nextTimerId, timers := l.timers.insert key ⟨taskId, .timer, payload⟩ }
      (.ok ⟨key, taskId, next⟩, next)
where
  checked : Except QueueError (Duration × TaskId × TaskId) := do
    l.ensureTaskCapacity
    refuse (l.timers.size ≥ l.limits.maxPendingTimers) (QueueError.timerCapacityReached l.limits.maxPendingTimers)
    let deadline ← l.deadlineAfter delay
    let (taskId, nextTaskId) ← allocateId l.nextTaskId
    return (deadline, taskId, nextTaskId)

/-- the pending timers whose payload satisfies the predicate are removed; the predicate sees each of them once, so that
one with a state of its own is a predicate on keys and payloads -/
def cancelTimers (predicate : TimerKey → T → Bool) : EventLoop T :=
  { l with timers := l.timers.retain fun key scheduled => !predicate key scheduled.payload }

def advanceTimeBy (duration : Duration) : Except ClockError (EventLoop T) :=
  match addDurations l.now duration with
  | some now => .ok { l with now }
  | none => .error .overflow

def advanceTimeTo (instant : Duration) : Except ClockError (EventLoop T) :=
  if instant < l.now then .error (.wouldMoveBackwards l.now instant) else .ok { l with now := instant }

def nextTimerDeadline : Option Duration := l.timers.popFirst.map fun first => first.1.1.deadline

/-- the loop of `promote_due_timers`, with a turn for each timer, and whether a timer woke up -/
def promoteLoop : ℕ → EventLoop T → Bool → EventLoop T × Bool
  | 0, l, timerWokeUp => (l, timerWokeUp)
  | turns + 1, l, timerWokeUp =>
    match l.timers.popFirst with
    | none => (l, timerWokeUp)
    | some ((key, task), rest) =>
      if key.deadline > l.now then (l, timerWokeUp)
      else promoteLoop turns { l with timers := rest, readyTasks := l.readyTasks ++ [task] } true

def promoteDueTimers : EventLoop T :=
  let (l, timerWokeUp) := promoteLoop l.timers.size l false
  if ¬ l.readyTasks.isEmpty ∨ ¬ timerWokeUp then l
  else
    match l.nextTimerDeadline with
    -- the `expect` behind this: a timer that is not due has its deadline ahead
    | some deadline => (l.advanceTimeTo deadline).toOption.getD l
    | none => l

/-- `rendering_decision`, and the loop after it -/
def renderingDecision (dom : Dom) : RenderingDecision × EventLoop T :=
  match dom.mutationsSince l.renderingRevision with
  | .ok batch =>
    if batch.records.isEmpty then (.noChange, l)
    else (.incremental batch, { l with renderingRevision := batch.toRevision })
  | .error cause =>
    (.fullRefresh l.renderingRevision dom.mutationRevision cause, { l with renderingRevision := dom.mutationRevision })

end EventLoop

end Render.Events
