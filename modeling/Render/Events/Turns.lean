/-
Runs of the event loop: what happens between turns and inside them, as steps of a transition system.

`Step` takes a session from one moment to the next: a call of a public function of the loop or of the DOM, which can be
made at any moment (`Acts`), the start of a turn, a microtask, the end of a turn. `runOneTurn` is the function of the source, for
any `execute` that only makes such calls; `runOneTurn_steps` says that it goes along the steps. So what holds in every
session that the steps reach holds before, after and inside every turn.
-/
import Render.Events.EventLoop

namespace Render.Events

open Render.Core

/-! ## Sessions -/

inductive Event where
  | taskQueued (id : TaskId)
  | microtaskQueued (id : MicrotaskId)
  | timerSet (key : TimerKey) (task : TaskId)
  | timerCleared (key : TimerKey) (task : TaskId)
  /-- the task of a timer becomes ready -/
  | timerDue (key : TimerKey) (task : TaskId)
  | taskStarted (id : TaskId) (instant : Duration)
  | microtaskStarted (id : MicrotaskId)
  | microtaskDiscarded (id : MicrotaskId)
  | turnEnded (outcome : TurnOutcome)

/-- a loop with its DOM, and what happened, oldest first -/
structure Session (T : Type) where
  loop : EventLoop T
  dom : Dom
  trace : List Event

/-- one call of a public function of the loop -/
inductive Action (T : Type) where
  | queueTask (source : TaskSource) (payload : T)
  | queueMicrotask (payload : T)
  | setTimeout (delay : Duration) (payload : T)
  | cancelTimers (predicate : TimerKey → T → Bool)
  | advanceTimeBy (duration : Duration)
  | advanceTimeTo (instant : Duration)

namespace Session

variable {T : Type} (s : Session T)

def start (dom : Dom) (limits : EventLoopLimits) : Session T := ⟨.withLimits dom limits, dom, []⟩

/-- the loop and the events of one call -/
def act : Action T → Session T
  | .queueTask source payload =>
    match s.loop.queueTask source payload with
    | .ok (id, loop) => { s with loop, trace := s.trace ++ [.taskQueued id] }
    | .error _ => s
  | .queueMicrotask payload =>
    match s.loop.queueMicrotask payload with
    | .ok (id, loop) => { s with loop, trace := s.trace ++ [.microtaskQueued id] }
    | .error _ => s
  | .setTimeout delay payload =>
    match s.loop.setTimeout delay payload with
    | (.ok timer, loop) => { s with loop, trace := s.trace ++ [.timerSet timer.key timer.task] }
    | (.error _, loop) => { s with loop }
  | .cancelTimers predicate =>
    { s with
      loop := s.loop.cancelTimers predicate
      trace := s.trace ++ (s.loop.timers.entries.filter fun entry => predicate entry.1 entry.2.payload).map fun entry =>
        .timerCleared entry.1 entry.2.id }
  | .advanceTimeBy duration =>
    match s.loop.advanceTimeBy duration with
    | .ok loop => { s with loop }
    | .error _ => s
  | .advanceTimeTo instant =>
    match s.loop.advanceTimeTo instant with
    | .ok loop => { s with loop }
    | .error _ => s

/-- the timers that are due -/
def due : List (TimerKey × ScheduledTask T) := s.loop.timers.entries.takeWhile fun entry => entry.1.deadline ≤ s.loop.now

def promoteDueTimers : Session T :=
  { s with
    loop := s.loop.promoteDueTimers
    trace := s.trace ++ s.due.map fun entry => .timerDue entry.1 entry.2.id }

/-- the first ready task is taken -/
def startTask (task : ScheduledTask T) (rest : List (ScheduledTask T)) : Session T :=
  { s with loop := { s.loop with readyTasks := rest }, trace := s.trace ++ [.taskStarted task.id s.loop.now] }

/-- the first microtask is taken -/
def startMicrotask (microtask : ScheduledMicrotask T) (rest : List (ScheduledMicrotask T)) : Session T :=
  { s with loop := { s.loop with microtasks := rest }, trace := s.trace ++ [.microtaskStarted microtask.id] }

def discardMicrotasks : Session T :=
  { s with
    loop := { s.loop with microtasks := [] }
    trace := s.trace ++ s.loop.microtasks.map fun microtask => .microtaskDiscarded microtask.id }

/-- the rendering decision, and the end of the turn -/
def endTurn (task : TaskId × TaskSource) (microtasks : MicrotaskCheckpoint) : TurnOutcome × Session T :=
  let (decision, loop) := s.loop.renderingDecision s.dom
  let outcome : TurnOutcome := ⟨task, microtasks, s.loop.now, decision⟩
  (outcome, { s with loop, trace := s.trace ++ [.turnEnded outcome] })

end Session

/-! ## Turns -/

section Turns

variable {T X : Type} (execute : X → Runnable T → Session T → X × Session T)

/-- the loop of `perform_microtask_checkpoint`, with the microtasks that it may still run -/
def performMicrotaskCheckpoint : ℕ → ℕ → X → Session T → MicrotaskCheckpoint × X × Session T
  | 0, executed, x, s =>
    match s.loop.microtasks with
    | [] => (.complete executed, x, s)
    | _ :: rest => (.resourceLimitReached executed (rest.length + 1), x, s.discardMicrotasks)
  | budget + 1, executed, x, s =>
    match s.loop.microtasks with
    | [] => (.complete executed, x, s)
    | microtask :: rest =>
      let (x, s) := execute x (.microtask microtask.id microtask.payload) (s.startMicrotask microtask rest)
      performMicrotaskCheckpoint budget (executed + 1) x s

/-- `run_one_turn`, where `execute` has a state of its own -/
def runOneTurn (x : X) (s : Session T) : Option TurnOutcome × X × Session T :=
  let s := s.promoteDueTimers
  match s.loop.readyTasks with
  | [] => (none, x, s)
  | task :: rest =>
    let (x, s) := execute x (.task task.id task.source task.payload) (s.startTask task rest)
    let (microtasks, x, s) := performMicrotaskCheckpoint execute s.loop.limits.maxMicrotasksPerCheckpoint 0 x s
    let (outcome, s) := s.endTurn (task.id, task.source) microtasks
    (some outcome, x, s)

end Turns

/-! ## Steps -/

variable {T X : Type}

/-- a call that can be made at any moment -/
inductive Acts (s : Session T) : Session T → Prop
  | action (action : Action T) : Acts s (s.act action)
  | mutate (op : Op) (result : Except DomError Unit) (dom : Dom) (hrun : op.run s.dom = some (result, dom)) :
      Acts s { s with dom }
  | graft (other : Dom) (hother : Reachable other) : Acts s { s with dom := s.dom.graftDocument other }

/-- between two turns, or in the turn of a task with a number of microtasks executed -/
inductive Phase where
  | idle
  | busy (task : TaskId × TaskSource) (executed : ℕ)

inductive Step : Phase × Session T → Phase × Session T → Prop
  | act {phase : Phase} {s t : Session T} (hact : Acts s t) : Step (phase, s) (phase, t)
  | idle {s : Session T} (hready : s.promoteDueTimers.loop.readyTasks = []) : Step (.idle, s) (.idle, s.promoteDueTimers)
  | task {s : Session T} {task : ScheduledTask T} {rest : List (ScheduledTask T)}
      (hready : s.promoteDueTimers.loop.readyTasks = task :: rest) :
      Step (.idle, s) (.busy (task.id, task.source) 0, s.promoteDueTimers.startTask task rest)
  | microtask {s : Session T} {task : TaskId × TaskSource} {executed : ℕ} {microtask : ScheduledMicrotask T}
      {rest : List (ScheduledMicrotask T)} (hmicrotasks : s.loop.microtasks = microtask :: rest) :
      Step (.busy task executed, s) (.busy task (executed + 1), s.startMicrotask microtask rest)
  | complete {s : Session T} {task : TaskId × TaskSource} {executed : ℕ} (hmicrotasks : s.loop.microtasks = []) :
      Step (.busy task executed, s) (.idle, (s.endTurn task (.complete executed)).2)
  | limited {s : Session T} {task : TaskId × TaskSource} {executed : ℕ} :
      Step (.busy task executed, s)
        (.idle, (s.discardMicrotasks.endTurn task (.resourceLimitReached executed s.loop.microtasks.length)).2)

/-- an `execute` that only makes calls of public functions -/
def Honest (execute : X → Runnable T → Session T → X × Session T) : Prop :=
  ∀ x runnable s, Relation.ReflTransGen Acts s (execute x runnable s).2

/-- the sessions that a loop over a reachable DOM gets into -/
def Reached (limits : EventLoopLimits) (dom : Dom) (phase : Phase) (s : Session T) : Prop :=
  Relation.ReflTransGen Step (.idle, .start dom limits) (phase, s)

theorem acts_steps {phase : Phase} {s t : Session T} (h : Relation.ReflTransGen Acts s t) :
    Relation.ReflTransGen Step (phase, s) (phase, t) := by
  induction h with
  | refl => exact .refl
  | tail _ hact ih => exact ih.tail (.act hact)

section Turns

variable {execute : X → Runnable T → Session T → X × Session T}

/-- the checkpoint and the end of the turn behind it go along the steps -/
theorem checkpoint_steps (hexecute : Honest execute) (task : TaskId × TaskSource) (budget : ℕ) :
    ∀ executed x s, Relation.ReflTransGen Step (.busy task executed, s)
      (.idle, ((performMicrotaskCheckpoint execute budget executed x s).2.2.endTurn task
        (performMicrotaskCheckpoint execute budget executed x s).1).2) := by
  induction budget with
  | zero =>
    intro executed x s
    cases hmicrotasks : s.loop.microtasks with
    | nil =>
      simp only [performMicrotaskCheckpoint, hmicrotasks]
      exact .single (.complete hmicrotasks)
    | cons microtask rest =>
      have hlimited : Step (.busy task executed, s) (.idle,
          (s.discardMicrotasks.endTurn task (.resourceLimitReached executed s.loop.microtasks.length)).2) := .limited
      rw [hmicrotasks, List.length_cons] at hlimited
      simp only [performMicrotaskCheckpoint, hmicrotasks]
      exact .single hlimited
  | succ budget ih =>
    intro executed x s
    cases hmicrotasks : s.loop.microtasks with
    | nil =>
      simp only [performMicrotaskCheckpoint, hmicrotasks]
      exact .single (.complete hmicrotasks)
    | cons microtask rest =>
      have hstart : Step (.busy task executed, s) (.busy task (executed + 1), s.startMicrotask microtask rest) :=
        .microtask hmicrotasks
      simp only [performMicrotaskCheckpoint, hmicrotasks]
      exact ((Relation.ReflTransGen.single hstart).trans (acts_steps (hexecute _ _ _))).trans (ih _ _ _)

/-- **Turns.** A turn goes along the steps, whatever its tasks do. -/
theorem runOneTurn_steps (hexecute : Honest execute) (x : X) (s : Session T) :
    Relation.ReflTransGen Step (.idle, s) (.idle, (runOneTurn execute x s).2.2) := by
  rw [runOneTurn]
  cases hready : s.promoteDueTimers.loop.readyTasks with
  | nil => exact .single (.idle hready)
  | cons task rest =>
    exact ((Relation.ReflTransGen.single (.task hready)).trans (acts_steps (hexecute _ _ _))).trans
      (checkpoint_steps hexecute _ _ _ _ _)

/-- a turn of a session that is reached -/
theorem Reached.turn (hexecute : Honest execute) {limits : EventLoopLimits} {dom : Dom} {s : Session T}
    (h : Reached limits dom .idle s) (x : X) : Reached limits dom .idle (runOneTurn execute x s).2.2 :=
  Relation.ReflTransGen.trans h (runOneTurn_steps hexecute x s)

end Turns

end Render.Events
