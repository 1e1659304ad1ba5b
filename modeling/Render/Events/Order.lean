/-
The order in which a loop runs its work.

The trace of a session is read through lists (`readied`, `started`, `timersSet`, `cleared` and those of the microtasks).
Each invariant relates these lists to what the loop still holds: `Fifo` for the queues, `Timely` for the keys of the
timers, `Accounted` for the tasks, `Punctual` for the instants, `Closed` for the turns. `runs_in_order` puts them together.
-/
import Render.Core.Paths
import Render.Events.Changes
import Mathlib.Data.List.Perm.Basic

namespace Render.Events

open Render.Core

variable {T : Type}

/-! ## Readings of a trace -/

namespace Event

/-- the task that becomes ready, with the key of its timer if it has one -/
def readied : Event → Option (Option TimerKey × TaskId)
  | .taskQueued id => some (none, id)
  | .timerDue key id => some (some key, id)
  | _ => none

/-- the task that starts, and when -/
def started : Event → Option (TaskId × Duration)
  | .taskStarted id instant => some (id, instant)
  | _ => none

/-- the task that is created -/
def created : Event → Option TaskId
  | .taskQueued id => some id
  | .timerSet _ id => some id
  | _ => none

def timerIsSet : Event → Option (TimerKey × TaskId)
  | .timerSet key id => some (key, id)
  | _ => none

def timerIsDue : Event → Option (TimerKey × TaskId)
  | .timerDue key id => some (key, id)
  | _ => none

def cleared : Event → Option (TimerKey × TaskId)
  | .timerCleared key id => some (key, id)
  | _ => none

def microtaskIsQueued : Event → Option MicrotaskId
  | .microtaskQueued id => some id
  | _ => none

/-- the microtask that is run or dropped -/
def microtaskFinished : Event → Option MicrotaskId
  | .microtaskStarted id => some id
  | .microtaskDiscarded id => some id
  | _ => none

end Event

section Readings

variable (trace : List Event)

abbrev readied : List (Option TimerKey × TaskId) := trace.filterMap Event.readied
abbrev started : List (TaskId × Duration) := trace.filterMap Event.started
abbrev created : List TaskId := trace.filterMap Event.created
abbrev timersSet : List (TimerKey × TaskId) := trace.filterMap Event.timerIsSet
abbrev timersDue : List (TimerKey × TaskId) := trace.filterMap Event.timerIsDue
abbrev cleared : List (TimerKey × TaskId) := trace.filterMap Event.cleared
abbrev microtasksQueued : List MicrotaskId := trace.filterMap Event.microtaskIsQueued
abbrev microtasksFinished : List MicrotaskId := trace.filterMap Event.microtaskFinished

/-- a task was started and its turn has not ended -/
def turnOpen : Bool :=
  trace.foldl (fun
    | _, .taskStarted _ _ => true
    | _, .turnEnded _ => false
    | isOpen, _ => isOpen) false

/-- a microtask was dropped since the last start of a task -/
def discarding : Bool :=
  trace.foldl (fun
    | _, .taskStarted _ _ => false
    | _, .microtaskDiscarded _ => true
    | isDiscarding, _ => isDiscarding) false

end Readings

/-! ## Queues -/

/-- both queues are first in, first out -/
structure Fifo (s : Session T) : Prop where
  tasks : (readied s.trace).map Prod.snd = (started s.trace).map Prod.fst ++ s.loop.readyTasks.map ScheduledTask.id
  microtasks : microtasksQueued s.trace = microtasksFinished s.trace ++ s.loop.microtasks.map ScheduledMicrotask.id

theorem renderingDecision_loop (l : EventLoop T) (dom : Dom) :
    ∃ revision, (l.renderingDecision dom).2 = { l with renderingRevision := revision } := by
  rw [EventLoop.renderingDecision]
  cases dom.mutationsSince l.renderingRevision with
  | ok batch =>
    simp only
    split_ifs
    · exact ⟨l.renderingRevision, rfl⟩
    · exact ⟨_, rfl⟩
  | error cause => exact ⟨_, rfl⟩

theorem fifo_kept {s t : Session T} (h : Change s t) (hs : Fifo s) : Fifo t := by
  obtain ⟨htasks, hmicrotasks⟩ := hs
  cases h with
  | other now nextTaskId dom hnow hid hdom => exact ⟨htasks, hmicrotasks⟩
  | taskQueued source payload hroom =>
    refine ⟨?_, ?_⟩
    · simp [htasks, Event.readied, Event.started, List.filterMap_cons]
    · simp [hmicrotasks, Event.microtaskIsQueued, Event.microtaskFinished, List.filterMap_cons]
  | microtaskQueued payload hroom =>
    refine ⟨?_, ?_⟩
    · simp [htasks, Event.readied, Event.started, List.filterMap_cons]
    · simp [hmicrotasks, Event.microtaskIsQueued, Event.microtaskFinished, List.filterMap_cons]
  | timerSet deadline payload hahead hroom htimers =>
    refine ⟨?_, ?_⟩
    · simp [htasks, Event.readied, Event.started, List.filterMap_cons]
    · simp [hmicrotasks, Event.microtaskIsQueued, Event.microtaskFinished, List.filterMap_cons]
  | timersCleared predicate =>
    refine ⟨?_, ?_⟩
    · simp [Session.act, EventLoop.cancelTimers, htasks, Event.readied, Event.started, Function.comp_def]
    · simp [Session.act, EventLoop.cancelTimers, hmicrotasks, Event.microtaskIsQueued, Event.microtaskFinished,
        Function.comp_def]
  | timersDue due rest hsplit hdue =>
    refine ⟨?_, ?_⟩
    · simp [htasks, Event.readied, Event.started, Function.comp_def]
    · simp [hmicrotasks, Event.microtaskIsQueued, Event.microtaskFinished, Function.comp_def]
  | taskStarted task rest hready =>
    refine ⟨?_, ?_⟩
    · simp [Session.startTask, htasks, hready, Event.readied, Event.started, List.filterMap_cons]
    · simp [Session.startTask, hmicrotasks, Event.microtaskIsQueued, Event.microtaskFinished, List.filterMap_cons]
  | microtaskStarted microtask rest hqueue =>
    refine ⟨?_, ?_⟩
    · simp [Session.startMicrotask, htasks, Event.readied, Event.started, List.filterMap_cons]
    · simp [Session.startMicrotask, hmicrotasks, hqueue, Event.microtaskIsQueued, Event.microtaskFinished, List.filterMap_cons]
  | microtasksDiscarded =>
    refine ⟨?_, ?_⟩
    · simp [Session.discardMicrotasks, htasks, Event.readied, Event.started, Function.comp_def]
    · simp [Session.discardMicrotasks, hmicrotasks, Event.microtaskIsQueued, Event.microtaskFinished, Function.comp_def]
  | turnEnded task microtasks =>
    obtain ⟨revision, hloop⟩ := renderingDecision_loop s.loop s.dom
    refine ⟨?_, ?_⟩
    · simp [Session.endTurn, hloop, htasks, Event.readied, Event.started, List.filterMap_cons]
    · simp [Session.endTurn, hloop, hmicrotasks, Event.microtaskIsQueued, Event.microtaskFinished, List.filterMap_cons]

/-! ## Timers -/

/-- the keys of the timers go up, those that became due first -/
structure Timely (s : Session T) : Prop where
  keys : ((timersDue s.trace).map Prod.fst ++ s.loop.timers.entries.map Prod.fst).Pairwise (· < ·)
  due : ∀ timer ∈ timersDue s.trace, timer.1.deadline ≤ s.loop.now
  fresh : ∀ key ∈ (timersDue s.trace).map Prod.fst ++ s.loop.timers.entries.map Prod.fst, key.id < s.loop.nextTimerId

theorem Timely.of_same {s t : Session T} (hs : Timely s) (htrace : timersDue t.trace = timersDue s.trace)
    (htimers : t.loop.timers = s.loop.timers) (hid : t.loop.nextTimerId = s.loop.nextTimerId)
    (hnow : s.loop.now ≤ t.loop.now) : Timely t := by
  obtain ⟨hkeys, hdue, hfresh⟩ := hs
  refine ⟨?_, ?_, ?_⟩
  · rw [htrace, htimers]
    exact hkeys
  · intro timer hmem
    rw [htrace] at hmem
    exact (hdue timer hmem).trans hnow
  · rw [htrace, htimers, hid]
    exact hfresh

/-- a timer that is set now comes after those that are due or pending -/
theorem Timely.set {s : Session T} (hs : Timely s) {deadline : Duration} (hahead : s.loop.now ≤ deadline)
    (task : ScheduledTask T) :
    ((timersDue s.trace).map Prod.fst ++
      (s.loop.timers.insert ⟨deadline, s.loop.nextTimerId⟩ task).entries.map Prod.fst).Pairwise (· < ·) := by
  obtain ⟨hkeys, hdue, hfresh⟩ := hs
  obtain ⟨hfirst, _, hacross⟩ := List.pairwise_append.1 hkeys
  refine List.pairwise_append.2 ⟨hfirst, List.pairwise_map.2 (SortedMap.sorted _), ?_⟩
  intro key hkey key' hkey'
  obtain ⟨entry, hentry, rfl⟩ := List.mem_map.1 hkey'
  rcases SortedMap.mem_insert.1 hentry with rfl | ⟨hold, _⟩
  · obtain ⟨timer, htimer, rfl⟩ := List.mem_map.1 hkey
    have hdeadline : timer.1.deadline ≤ deadline := (hdue timer htimer).trans hahead
    have hid := hfresh timer.1 (List.mem_append_left _ hkey)
    rw [TimerKey.lt_iff]
    rcases Nat.lt_or_eq_of_le hdeadline with hless | heq
    · exact .inl hless
    · exact .inr ⟨heq, hid⟩
  · exact hacross key hkey _ (List.mem_map_of_mem hold)

theorem timely_kept {s t : Session T} (h : Change s t) (hs : Timely s) : Timely t := by
  cases h with
  | other now nextTaskId dom hnow hid hdom => exact hs.of_same rfl rfl rfl hnow
  | taskQueued source payload hroom =>
    exact hs.of_same (by simp [Event.timerIsDue, List.filterMap_cons]) rfl rfl le_rfl
  | microtaskQueued payload hroom =>
    exact hs.of_same (by simp [Event.timerIsDue, List.filterMap_cons]) rfl rfl le_rfl
  | timerSet deadline payload hahead hroom htimers =>
    have htrace : timersDue (s.trace ++ [.timerSet ⟨deadline, s.loop.nextTimerId⟩ s.loop.nextTaskId]) = timersDue s.trace := by
      simp [Event.timerIsDue, List.filterMap_cons]
    refine ⟨?_, ?_, ?_⟩
    · rw [htrace]
      exact hs.set hahead _
    · rw [htrace]
      exact hs.due
    · rw [htrace]
      intro key hkey
      rcases List.mem_append.1 hkey with hdue | hpending
      · exact (hs.fresh key (List.mem_append_left _ hdue)).trans (Nat.lt_succ_self _)
      · obtain ⟨entry, hentry, rfl⟩ := List.mem_map.1 hpending
        rcases SortedMap.mem_insert.1 hentry with rfl | ⟨hold, _⟩
        · exact Nat.lt_succ_self _
        · exact (hs.fresh entry.1 (List.mem_append_right _ (List.mem_map_of_mem hold))).trans (Nat.lt_succ_self _)
  | timersCleared predicate =>
    have htrace : timersDue (s.act (.cancelTimers predicate)).trace = timersDue s.trace := by
      simp [Session.act, Event.timerIsDue, Function.comp_def]
    have hless : ((timersDue s.trace).map Prod.fst ++ (s.act (.cancelTimers predicate)).loop.timers.entries.map Prod.fst).Sublist
        ((timersDue s.trace).map Prod.fst ++ s.loop.timers.entries.map Prod.fst) :=
      (List.Sublist.refl _).append (List.filter_sublist.map _)
    refine ⟨?_, ?_, ?_⟩
    · rw [htrace]
      exact hs.keys.sublist hless
    · rw [htrace]
      exact hs.due
    · rw [htrace]
      intro key hkey
      exact hs.fresh key (hless.subset hkey)
  | timersDue due rest hsplit hdue =>
    have htrace : timersDue (s.trace ++ due.map fun entry => .timerDue entry.1 entry.2.id) =
        timersDue s.trace ++ due.map fun entry => (entry.1, entry.2.id) := by
      simp [Event.timerIsDue, Function.comp_def]
    have hkeys : ((timersDue s.trace ++ due.map fun entry => (entry.1, entry.2.id)).map Prod.fst ++ rest.entries.map Prod.fst) =
        (timersDue s.trace).map Prod.fst ++ s.loop.timers.entries.map Prod.fst := by
      simp [hsplit]
    refine ⟨?_, ?_, ?_⟩
    · rw [htrace, hkeys]
      exact hs.keys
    · rw [htrace]
      intro timer hmem
      rcases List.mem_append.1 hmem with hold | hnew
      · exact hs.due timer hold
      · obtain ⟨entry, hentry, rfl⟩ := List.mem_map.1 hnew
        exact hdue entry hentry
    · rw [htrace, hkeys]
      exact hs.fresh
  | taskStarted task rest hready =>
    exact hs.of_same (by simp [Session.startTask, Event.timerIsDue, List.filterMap_cons]) rfl rfl le_rfl
  | microtaskStarted microtask rest hqueue =>
    exact hs.of_same (by simp [Session.startMicrotask, Event.timerIsDue, List.filterMap_cons]) rfl rfl le_rfl
  | microtasksDiscarded =>
    exact hs.of_same (by simp [Session.discardMicrotasks, Event.timerIsDue, Function.comp_def]) rfl rfl le_rfl
  | turnEnded task microtasks =>
    obtain ⟨revision, hloop⟩ := renderingDecision_loop s.loop s.dom
    refine hs.of_same ?_ ?_ ?_ ?_
    · simp [Session.endTurn, Event.timerIsDue, List.filterMap_cons]
    · simp [Session.endTurn, hloop]
    · simp [Session.endTurn, hloop]
    · simp [Session.endTurn, hloop]

/-! ## Tasks -/

/-- the timers that are pending, each with its task -/
def EventLoop.pending (l : EventLoop T) : List (TimerKey × TaskId) := l.timers.entries.map fun entry => (entry.1, entry.2.id)

/-- every task is new when it is created, and is ready or done, cleared or pending afterwards -/
structure Accounted (s : Session T) : Prop where
  tasks : (created s.trace).Perm
    ((readied s.trace).map Prod.snd ++ ((cleared s.trace).map Prod.snd ++ s.loop.pending.map Prod.snd))
  timers : (timersSet s.trace).Perm (timersDue s.trace ++ (cleared s.trace ++ s.loop.pending))
  increasing : (created s.trace).Pairwise (· < ·)
  fresh : ∀ id ∈ created s.trace, id < s.loop.nextTaskId

/-- what is new on one side is gone on the other -/
theorem perm_moved {α : Type} {total gone lost left total' gone' lost' left' : List α}
    (h : total.Perm (gone ++ (lost ++ left))) (hmoved : (total' ++ left).Perm (gone' ++ (lost' ++ left'))) :
    (total ++ total').Perm ((gone ++ gone') ++ ((lost ++ lost') ++ left')) := by
  have hswap : (total ++ total').Perm ((gone ++ lost) ++ (total' ++ left)) := by
    refine (h.append_right total').trans ?_
    rw [← List.append_assoc, List.append_assoc]
    exact List.perm_append_comm.append_left _
  have hjoin : (gone ++ lost ++ (gone' ++ (lost' ++ left'))).Perm (gone ++ gone' ++ (lost ++ lost' ++ left')) := by
    have hmiddle : (lost ++ gone').Perm (gone' ++ lost) := List.perm_append_comm
    have := (hmiddle.append_right (lost' ++ left')).append_left gone
    simpa only [List.append_assoc] using this
  exact (hswap.trans (hmoved.append_left _)).trans hjoin

theorem Accounted.step {s t : Session T} (hs : Accounted s) {more : List Event} (htrace : t.trace = s.trace ++ more)
    (htasks : (created more ++ s.loop.pending.map Prod.snd).Perm
      ((readied more).map Prod.snd ++ ((cleared more).map Prod.snd ++ t.loop.pending.map Prod.snd)))
    (htimers : (timersSet more ++ s.loop.pending).Perm (timersDue more ++ (cleared more ++ t.loop.pending)))
    (hincreasing : (created t.trace).Pairwise (· < ·)) (hfresh : ∀ id ∈ created t.trace, id < t.loop.nextTaskId) :
    Accounted t := by
  refine ⟨?_, ?_, hincreasing, hfresh⟩
  · rw [htrace]
    simp only [List.filterMap_append, List.map_append]
    exact perm_moved hs.tasks htasks
  · rw [htrace]
    simp only [List.filterMap_append]
    exact perm_moved hs.timers htimers

/-- no task is created, and the pending timers stay -/
theorem Accounted.of_same {s t : Session T} (hs : Accounted s) (hpending : t.loop.pending = s.loop.pending)
    (hid : s.loop.nextTaskId ≤ t.loop.nextTaskId) {more : List Event} (htrace : t.trace = s.trace ++ more)
    (hmore : ∀ event ∈ more, event.created = none ∧ event.readied = none ∧ event.cleared = none ∧
      event.timerIsSet = none ∧ event.timerIsDue = none) : Accounted t := by
  have hcreated : created more = [] := List.filterMap_eq_nil_iff.2 fun event hmem => (hmore event hmem).1
  have hreadied : readied more = [] := List.filterMap_eq_nil_iff.2 fun event hmem => (hmore event hmem).2.1
  have hcleared : cleared more = [] := List.filterMap_eq_nil_iff.2 fun event hmem => (hmore event hmem).2.2.1
  have hset : timersSet more = [] := List.filterMap_eq_nil_iff.2 fun event hmem => (hmore event hmem).2.2.2.1
  have hdue : timersDue more = [] := List.filterMap_eq_nil_iff.2 fun event hmem => (hmore event hmem).2.2.2.2
  have hsame : created t.trace = created s.trace := by
    rw [htrace, created, List.filterMap_append]
    exact (congrArg _ hcreated).trans (List.append_nil _)
  refine hs.step htrace ?_ ?_ ?_ ?_
  · rw [hcreated, hreadied, hcleared, hpending]
    exact .refl _
  · rw [hset, hdue, hcleared, hpending]
    exact .refl _
  · rw [hsame]
    exact hs.increasing
  · rw [hsame]
    intro id hmem
    exact (hs.fresh id hmem).trans_le hid

/-- the task that is created now is the newest -/
theorem Accounted.newest {s : Session T} (hs : Accounted s) :
    (created s.trace ++ [s.loop.nextTaskId]).Pairwise (· < ·) ∧
      ∀ id ∈ created s.trace ++ [s.loop.nextTaskId], id < s.loop.nextTaskId + 1 := by
  refine ⟨List.pairwise_append.2 ⟨hs.increasing, List.pairwise_singleton _ _, ?_⟩, ?_⟩
  · intro id hmem id' hmem'
    rw [List.mem_singleton] at hmem'
    rw [hmem']
    exact hs.fresh id hmem
  · intro id hmem
    rcases List.mem_append.1 hmem with hold | hnew
    · exact (hs.fresh id hold).trans (Nat.lt_succ_self _)
    · rw [List.mem_singleton.1 hnew]
      exact Nat.lt_succ_self _

/-- the new timer has a key of its own -/
theorem pending_set {s : Session T} (hs : Timely s) (deadline : Duration) (task : ScheduledTask T) :
    ((s.loop.timers.insert ⟨deadline, s.loop.nextTimerId⟩ task).entries.map fun entry => (entry.1, entry.2.id)).Perm
      ((⟨deadline, s.loop.nextTimerId⟩, task.id) :: s.loop.pending) := by
  refine (SortedMap.insert_perm ?_).map _
  intro entry hmem heq
  have hfresh := hs.fresh entry.1 (List.mem_append_right _ (List.mem_map_of_mem hmem))
  rw [heq] at hfresh
  exact absurd hfresh (lt_irrefl _)

/-- the timers are those that are cleared and those that stay -/
theorem pending_cleared (l : EventLoop T) (predicate : TimerKey → T → Bool) :
    l.pending.Perm
      (((l.timers.entries.filter fun entry => predicate entry.1 entry.2.payload).map fun entry => (entry.1, entry.2.id)) ++
        (l.cancelTimers predicate).pending) := by
  have hsplit := List.filter_append_perm (fun entry : TimerKey × ScheduledTask T => predicate entry.1 entry.2.payload)
    l.timers.entries
  have hmap := hsplit.symm.map fun entry => (entry.1, entry.2.id)
  rw [List.map_append] at hmap
  exact hmap

theorem accounted_kept {s t : Session T} (h : Change s t) (htimely : Timely s) (hs : Accounted s) : Accounted t := by
  cases h with
  | other now nextTaskId dom hnow hid hdom => exact hs.of_same rfl hid (List.append_nil _).symm (by simp)
  | taskQueued source payload hroom =>
    refine hs.step rfl (.refl _) (.refl _) ?_ ?_
    · simpa [Event.created, List.filterMap_cons] using hs.newest.1
    · simpa [Event.created, List.filterMap_cons] using hs.newest.2
  | microtaskQueued payload hroom =>
    exact hs.of_same rfl le_rfl rfl (by simp [Event.created, Event.readied, Event.cleared, Event.timerIsSet, Event.timerIsDue])
  | timerSet deadline payload hahead hroom htimers =>
    have hset := pending_set htimely deadline ⟨s.loop.nextTaskId, .timer, payload⟩
    refine hs.step rfl (hset.symm.map Prod.snd) hset.symm ?_ ?_
    · simpa [Event.created, List.filterMap_cons] using hs.newest.1
    · simpa [Event.created, List.filterMap_cons] using hs.newest.2
  | timersCleared predicate =>
    have hsplit := pending_cleared s.loop predicate
    refine hs.step rfl ?_ ?_ ?_ ?_
    · simpa [Event.created, Event.readied, Event.cleared, Function.comp_def, Session.act] using hsplit.map Prod.snd
    · simpa [Event.timerIsSet, Event.timerIsDue, Event.cleared, Function.comp_def, Session.act] using hsplit
    · simpa [Session.act, Event.created, Function.comp_def] using hs.increasing
    · simpa [Session.act, EventLoop.cancelTimers, Event.created, Function.comp_def] using hs.fresh
  | timersDue due rest hsplit hdue =>
    refine hs.step rfl ?_ ?_ ?_ ?_
    · simp [EventLoop.pending, hsplit, Event.created, Event.readied, Event.cleared, Function.comp_def]
    · simp [EventLoop.pending, hsplit, Event.timerIsSet, Event.timerIsDue, Event.cleared, Function.comp_def]
    · simpa [Event.created, Function.comp_def] using hs.increasing
    · simpa [Event.created, Function.comp_def] using hs.fresh
  | taskStarted task rest hready =>
    exact hs.of_same rfl le_rfl rfl (by simp [Event.created, Event.readied, Event.cleared, Event.timerIsSet, Event.timerIsDue])
  | microtaskStarted microtask rest hqueue =>
    exact hs.of_same rfl le_rfl rfl (by simp [Event.created, Event.readied, Event.cleared, Event.timerIsSet, Event.timerIsDue])
  | microtasksDiscarded =>
    exact hs.of_same rfl le_rfl rfl (by simp [Event.created, Event.readied, Event.cleared, Event.timerIsSet, Event.timerIsDue])
  | turnEnded task microtasks =>
    obtain ⟨revision, hloop⟩ := renderingDecision_loop s.loop s.dom
    refine hs.of_same ?_ ?_ rfl ?_
    · simp [Session.endTurn, hloop, EventLoop.pending]
    · simp [Session.endTurn, hloop]
    · simp [Event.created, Event.readied, Event.cleared, Event.timerIsSet, Event.timerIsDue]

/-- a task that is ready or done is not that of a pending or cleared timer -/
theorem Accounted.apart {s : Session T} (hs : Accounted s) {id : TaskId} (hready : id ∈ (readied s.trace).map Prod.snd) :
    id ∉ (cleared s.trace).map Prod.snd ++ s.loop.pending.map Prod.snd := by
  have hnodup : (created s.trace).Nodup := hs.increasing.imp fun hless => hless.ne
  exact fun hmem => List.disjoint_of_nodup_append (hs.tasks.nodup_iff.1 hnodup) hready hmem

theorem Accounted.readied_nodup {s : Session T} (hs : Accounted s) : ((readied s.trace).map Prod.snd).Nodup := by
  have hnodup : (created s.trace).Nodup := hs.increasing.imp fun hless => hless.ne
  exact (List.nodup_append.1 (hs.tasks.nodup_iff.1 hnodup)).1

/-! ## Instants -/

/-- the task of a timer starts at its deadline or later -/
def Punctual (s : Session T) : Prop :=
  ∀ key id instant, (key, id) ∈ timersDue s.trace → (id, instant) ∈ started s.trace → key.deadline ≤ instant

theorem Punctual.of_same {s t : Session T} (hs : Punctual s) (hdue : timersDue t.trace = timersDue s.trace)
    (hstarted : started t.trace = started s.trace) : Punctual t := by
  intro key id instant hmem hstart
  rw [hdue] at hmem
  rw [hstarted] at hstart
  exact hs key id instant hmem hstart

theorem punctual_kept {s t : Session T} (h : Change s t) (hfifo : Fifo s) (htimely : Timely s) (haccounted : Accounted s)
    (hs : Punctual s) : Punctual t := by
  cases h with
  | other now nextTaskId dom hnow hid hdom => exact hs
  | taskQueued source payload hroom =>
    exact hs.of_same (by simp [Event.timerIsDue, List.filterMap_cons]) (by simp [Event.started, List.filterMap_cons])
  | microtaskQueued payload hroom =>
    exact hs.of_same (by simp [Event.timerIsDue, List.filterMap_cons]) (by simp [Event.started, List.filterMap_cons])
  | timerSet deadline payload hahead hroom htimers =>
    exact hs.of_same (by simp [Event.timerIsDue, List.filterMap_cons]) (by simp [Event.started, List.filterMap_cons])
  | timersCleared predicate =>
    exact hs.of_same (by simp [Session.act, Event.timerIsDue, Function.comp_def])
      (by simp [Session.act, Event.started, Function.comp_def])
  | timersDue due rest hsplit hdue =>
    intro key id instant hmem hstart
    have hold : (id, instant) ∈ started s.trace := by
      simpa [Event.started, Function.comp_def] using hstart
    have hmem' : (key, id) ∈ timersDue s.trace ∨ (key, id) ∈ due.map fun entry => (entry.1, entry.2.id) := by
      simpa [Event.timerIsDue, Function.comp_def] using hmem
    rcases hmem' with hmem' | hnew
    · exact hs key id instant hmem' hold
    · -- a pending timer has not started
      have hready : id ∈ (readied s.trace).map Prod.snd := by
        rw [hfifo.tasks]
        exact List.mem_append_left _ (List.mem_map_of_mem hold)
      have hpending : id ∈ s.loop.pending.map Prod.snd := by
        rw [EventLoop.pending, hsplit, List.map_append, List.map_append]
        exact List.mem_append_left _ (List.mem_map_of_mem hnew)
      exact absurd (List.mem_append_right _ hpending) (haccounted.apart hready)
  | taskStarted task rest hready =>
    intro key id instant hmem hstart
    have hold : (key, id) ∈ timersDue s.trace := by
      simpa [Session.startTask, Event.timerIsDue, List.filterMap_cons] using hmem
    have hstart' : (id, instant) ∈ started s.trace ∨ (id, instant) = (task.id, s.loop.now) := by
      simpa [Session.startTask, Event.started, List.filterMap_cons] using hstart
    rcases hstart' with hstart' | hnew
    · exact hs key id instant hold hstart'
    · obtain ⟨rfl, rfl⟩ := Prod.mk.inj hnew
      exact htimely.due (key, task.id) hold
  | microtaskStarted microtask rest hqueue =>
    exact hs.of_same (by simp [Session.startMicrotask, Event.timerIsDue, List.filterMap_cons])
      (by simp [Session.startMicrotask, Event.started, List.filterMap_cons])
  | microtasksDiscarded =>
    exact hs.of_same (by simp [Session.discardMicrotasks, Event.timerIsDue, Function.comp_def])
      (by simp [Session.discardMicrotasks, Event.started, Function.comp_def])
  | turnEnded task microtasks =>
    exact hs.of_same (by simp [Session.endTurn, Event.timerIsDue, List.filterMap_cons])
      (by simp [Session.endTurn, Event.started, List.filterMap_cons])

/-! ## Limits -/

/-- the counts of what is pending are within the limits -/
structure Limited (limits : EventLoopLimits) (s : Session T) : Prop where
  same : s.loop.limits = limits
  tasks : s.loop.pendingTaskCount ≤ limits.maxPendingTasks
  timers : s.loop.timers.size ≤ limits.maxPendingTimers
  microtasks : s.loop.microtasks.length ≤ limits.maxPendingMicrotasks

theorem limited_kept {limits : EventLoopLimits} {s t : Session T} (h : Change s t) (hs : Limited limits s) :
    Limited limits t := by
  obtain ⟨rfl, htasks, htimers, hmicrotasks⟩ := hs
  cases h with
  | other now nextTaskId dom hnow hid hdom => exact ⟨rfl, htasks, htimers, hmicrotasks⟩
  | taskQueued source payload hroom =>
    refine ⟨rfl, ?_, htimers, hmicrotasks⟩
    simp only [EventLoop.pendingTaskCount, List.length_append, List.length_singleton] at hroom ⊢
    omega
  | microtaskQueued payload hroom =>
    refine ⟨rfl, htasks, htimers, ?_⟩
    simp only [List.length_append, List.length_singleton]
    exact hroom
  | timerSet deadline payload hahead hroom hless =>
    have hsize := @SortedMap.size_insert_le _ _ _ s.loop.timers ⟨deadline, s.loop.nextTimerId⟩
      ⟨s.loop.nextTaskId, .timer, payload⟩
    refine ⟨rfl, ?_, ?_, hmicrotasks⟩
    · simp only [EventLoop.pendingTaskCount] at hroom ⊢
      omega
    · exact hsize.trans hless
  | timersCleared predicate =>
    have hsize := @SortedMap.size_retain_le _ _ _ s.loop.timers fun key scheduled => !predicate key scheduled.payload
    refine ⟨rfl, ?_, hsize.trans htimers, hmicrotasks⟩
    simp only [EventLoop.pendingTaskCount, Session.act, EventLoop.cancelTimers] at htasks ⊢
    omega
  | timersDue due rest hsplit hdue =>
    have hsize : s.loop.timers.size = due.length + rest.size := by
      rw [SortedMap.size, hsplit, List.length_append]
      rfl
    refine ⟨rfl, ?_, ?_, hmicrotasks⟩
    · simp only [EventLoop.pendingTaskCount, List.length_append, List.length_map] at htasks ⊢
      omega
    · simp only
      omega
  | taskStarted task rest hready =>
    refine ⟨rfl, ?_, htimers, hmicrotasks⟩
    simp only [EventLoop.pendingTaskCount, Session.startTask, hready, List.length_cons] at htasks ⊢
    omega
  | microtaskStarted microtask rest hqueue =>
    refine ⟨rfl, htasks, htimers, ?_⟩
    simp only [Session.startMicrotask, hqueue, List.length_cons] at hmicrotasks ⊢
    omega
  | microtasksDiscarded => exact ⟨rfl, htasks, htimers, Nat.zero_le _⟩
  | turnEnded task microtasks =>
    obtain ⟨revision, hloop⟩ := renderingDecision_loop s.loop s.dom
    refine ⟨?_, ?_, ?_, ?_⟩
    · simp [Session.endTurn, hloop]
    · simpa [Session.endTurn, hloop, EventLoop.pendingTaskCount] using htasks
    · simpa [Session.endTurn, hloop] using htimers
    · simpa [Session.endTurn, hloop] using hmicrotasks

/-! ## Turns -/

/-- a microtask is queued once, before it runs or is dropped -/
def Announced (before : List Event) : Event → Prop
  | .microtaskQueued id => id ∉ microtasksQueued before
  | .microtaskStarted id => id ∈ microtasksQueued before
  | .microtaskDiscarded id => id ∈ microtasksQueued before
  | _ => True

/-- the identifiers of the microtasks are new when they are queued -/
structure Fresh (s : Session T) : Prop where
  each : Each Announced s.trace
  next : ∀ id ∈ microtasksQueued s.trace, id < s.loop.nextMicrotaskId

theorem all_map {α : Type} {event : α → Event} {test : Event → Bool} (h : ∀ a, test (event a) = true) (as : List α) :
    ∀ e ∈ as.map event, test e = true := by
  rw [List.forall_mem_map]
  exact fun a _ => h a

/-- the event is not about microtasks -/
def Event.isOther : Event → Bool
  | .microtaskQueued _ => false
  | .microtaskStarted _ => false
  | .microtaskDiscarded _ => false
  | _ => true

theorem Fresh.of_other {s t : Session T} (hs : Fresh s) {more : List Event} (htrace : t.trace = s.trace ++ more)
    (hmore : ∀ event ∈ more, event.isOther = true) (hid : t.loop.nextMicrotaskId = s.loop.nextMicrotaskId) : Fresh t := by
  have hnone : microtasksQueued more = [] := by
    refine List.filterMap_eq_nil_iff.2 ?_
    intro event hmem
    have hother := hmore event hmem
    cases event <;> first | rfl | cases hother
  refine ⟨?_, ?_⟩
  · rw [htrace]
    refine hs.each.append (each_of_forall ?_)
    intro event hmem before
    have hother := hmore event hmem
    cases event <;> trivial
  · rw [htrace, hid]
    intro id hmem
    rw [microtasksQueued, List.filterMap_append] at hmem
    rcases List.mem_append.1 hmem with hold | hnew
    · exact hs.next id hold
    · rw [show List.filterMap Event.microtaskIsQueued more = [] from hnone] at hnew
      simp at hnew

theorem fresh_kept {s t : Session T} (h : Change s t) (hfifo : Fifo s) (hs : Fresh s) : Fresh t := by
  cases h with
  | other now nextTaskId dom hnow hid hdom => exact ⟨hs.each, hs.next⟩
  | taskQueued source payload hroom => exact hs.of_other rfl (by simp [Event.isOther]) rfl
  | microtaskQueued payload hroom =>
    refine ⟨hs.each.concat ?_, ?_⟩
    · intro hmem
      exact absurd (hs.next _ hmem) (lt_irrefl _)
    · intro id hmem
      have hmem' : id ∈ microtasksQueued s.trace ∨ id = s.loop.nextMicrotaskId := by
        simpa [Event.microtaskIsQueued, List.filterMap_cons] using hmem
      rcases hmem' with hold | rfl
      · exact (hs.next id hold).trans (Nat.lt_succ_self _)
      · exact Nat.lt_succ_self _
  | timerSet deadline payload hahead hroom htimers => exact hs.of_other rfl (by simp [Event.isOther]) rfl
  | timersCleared predicate => exact hs.of_other rfl (all_map (fun _ => rfl) _) rfl
  | timersDue due rest hsplit hdue => exact hs.of_other rfl (all_map (fun _ => rfl) _) rfl
  | taskStarted task rest hready => exact hs.of_other rfl (by simp [Event.isOther]) rfl
  | microtaskStarted microtask rest hqueue =>
    refine ⟨hs.each.concat ?_, ?_⟩
    · simp [Announced, hfifo.microtasks, hqueue]
    · simpa [Session.startMicrotask, Event.microtaskIsQueued, List.filterMap_cons] using hs.next
  | microtasksDiscarded =>
    refine ⟨hs.each.append ?_, ?_⟩
    · intro before event after heq
      have hmem : event ∈ s.loop.microtasks.map fun microtask => Event.microtaskDiscarded microtask.id := by
        rw [heq]
        exact List.mem_append_right _ List.mem_cons_self
      obtain ⟨microtask, hmicrotask, rfl⟩ := List.mem_map.1 hmem
      have hqueued : microtask.id ∈ microtasksQueued s.trace := by
        rw [hfifo.microtasks]
        exact List.mem_append_right _ (List.mem_map_of_mem hmicrotask)
      rw [Announced, microtasksQueued, List.filterMap_append]
      exact List.mem_append_left _ hqueued
    · simpa [Session.discardMicrotasks, Event.microtaskIsQueued, Function.comp_def] using hs.next
  | turnEnded task microtasks =>
    obtain ⟨revision, hloop⟩ := renderingDecision_loop s.loop s.dom
    refine hs.of_other rfl (by simp [Event.isOther]) ?_
    simp [Session.endTurn, hloop]

/-- a task starts when the turn before it has ended; a turn ends when no microtask is left, and if microtasks were dropped
in it then it says so -/
def Turnwise (before : List Event) : Event → Prop
  | .taskStarted _ _ => turnOpen before = false
  | .turnEnded outcome => microtasksQueued before = microtasksFinished before ∧
      (discarding before = true → ∃ executed discarded, outcome.microtasks = .resourceLimitReached executed discarded)
  | _ => True

def Phase.isBusy : Phase → Bool
  | .idle => false
  | .busy _ _ => true

structure Closed (phase : Phase) (s : Session T) : Prop where
  each : Each Turnwise s.trace
  isOpen : turnOpen s.trace = phase.isBusy
  kept : phase.isBusy = true → discarding s.trace = false

/-- the event is not about turns -/
def Event.isQuiet : Event → Bool
  | .taskStarted _ _ => false
  | .microtaskDiscarded _ => false
  | .turnEnded _ => false
  | _ => true

theorem turnOpen_quiet {trace more : List Event} (hmore : ∀ event ∈ more, event.isQuiet = true) :
    turnOpen (trace ++ more) = turnOpen trace := by
  induction more using List.reverseRecOn with
  | nil => rw [List.append_nil]
  | append_singleton others event ih =>
    have hquiet := hmore event (by simp)
    rw [← List.append_assoc, turnOpen, List.foldl_concat]
    have := ih fun event hmem => hmore event (List.mem_append_left _ hmem)
    cases event <;> first | exact this | cases hquiet

theorem discarding_quiet {trace more : List Event} (hmore : ∀ event ∈ more, event.isQuiet = true) :
    discarding (trace ++ more) = discarding trace := by
  induction more using List.reverseRecOn with
  | nil => rw [List.append_nil]
  | append_singleton others event ih =>
    have hquiet := hmore event (by simp)
    rw [← List.append_assoc, discarding, List.foldl_concat]
    have := ih fun event hmem => hmore event (List.mem_append_left _ hmem)
    cases event <;> first | exact this | cases hquiet

theorem Closed.quiet {phase phase' : Phase} {s t : Session T} (hs : Closed phase s) {more : List Event}
    (htrace : t.trace = s.trace ++ more) (hmore : ∀ event ∈ more, event.isQuiet = true)
    (hphase : phase'.isBusy = phase.isBusy) : Closed phase' t := by
  refine ⟨?_, ?_, ?_⟩
  · rw [htrace]
    refine hs.each.append (each_of_forall ?_)
    intro event hmem before
    have hquiet := hmore event hmem
    cases event <;> trivial
  · rw [htrace, turnOpen_quiet hmore, hs.isOpen, hphase]
  · rw [htrace, discarding_quiet hmore, hphase]
    exact hs.kept

theorem Acts.quiet {s t : Session T} (h : Acts s t) : ∃ more, t.trace = s.trace ++ more ∧ ∀ event ∈ more, event.isQuiet = true := by
  have hsame : ∃ more, s.trace = s.trace ++ more ∧ ∀ event ∈ more, event.isQuiet = true := ⟨[], by simp⟩
  cases h with
  | mutate op result dom hrun => exact hsame
  | graft other hother => exact hsame
  | action action =>
    cases action with
    | queueTask source payload =>
      simp only [Session.act]
      cases s.loop.queueTask source payload with
      | error error => exact hsame
      | ok queued => exact ⟨_, rfl, by simp [Event.isQuiet]⟩
    | queueMicrotask payload =>
      simp only [Session.act]
      cases s.loop.queueMicrotask payload with
      | error error => exact hsame
      | ok queued => exact ⟨_, rfl, by simp [Event.isQuiet]⟩
    | setTimeout delay payload =>
      simp only [Session.act]
      rcases s.loop.setTimeout delay payload with ⟨error | timer, loop⟩
      · exact hsame
      · exact ⟨_, rfl, by simp [Event.isQuiet]⟩
    | cancelTimers predicate => exact ⟨_, rfl, all_map (fun _ => rfl) _⟩
    | advanceTimeBy duration =>
      simp only [Session.act]
      cases s.loop.advanceTimeBy duration with
      | error error => exact hsame
      | ok loop => exact hsame
    | advanceTimeTo instant =>
      simp only [Session.act]
      cases s.loop.advanceTimeTo instant with
      | error error => exact hsame
      | ok loop => exact hsame

theorem closed_kept {phase phase' : Phase} {s t : Session T} (h : Step (phase, s) (phase', t)) (hfifo : Fifo s)
    (hs : Closed phase s) : Closed phase' t := by
  cases h with
  | act hact =>
    obtain ⟨more, htrace, hmore⟩ := hact.quiet
    exact hs.quiet htrace hmore rfl
  | idle hready => exact hs.quiet rfl (all_map (fun _ => rfl) _) rfl
  | task hready =>
    have hpromoted : Closed .idle s.promoteDueTimers := hs.quiet rfl (all_map (fun _ => rfl) _) rfl
    refine ⟨hpromoted.each.concat hpromoted.isOpen, ?_, fun _ => ?_⟩
    · rw [Session.startTask, turnOpen, List.foldl_concat]
      rfl
    · rw [Session.startTask, discarding, List.foldl_concat]
  | microtask hmicrotasks => exact hs.quiet rfl (by simp [Event.isQuiet]) rfl
  | complete hmicrotasks =>
    refine ⟨hs.each.concat ⟨?_, ?_⟩, ?_, nofun⟩
    · rw [hfifo.microtasks, hmicrotasks]
      simp
    · rw [hs.kept rfl]
      nofun
    · rw [Session.endTurn, turnOpen, List.foldl_concat]
      rfl
  | limited =>
    have hfifo' := fifo_kept .microtasksDiscarded hfifo
    refine ⟨Each.concat ?_ ⟨?_, fun _ => ⟨_, _, rfl⟩⟩, ?_, nofun⟩
    · refine hs.each.append (each_of_forall ?_)
      intro event hmem before
      obtain ⟨microtask, _, rfl⟩ := List.mem_map.1 hmem
      trivial
    · rw [hfifo'.microtasks]
      simp [Session.discardMicrotasks]
    · rw [Session.endTurn, turnOpen, List.foldl_concat]
      rfl

/-! ## Every session -/

structure InOrder (limits : EventLoopLimits) (s : Session T) : Prop where
  fifo : Fifo s
  timely : Timely s
  accounted : Accounted s
  punctual : Punctual s
  limited : Limited limits s
  fresh : Fresh s

theorem reached_inOrder {limits : EventLoopLimits} {dom : Dom} {phase : Phase} {s : Session T}
    (h : Reached limits dom phase s) : InOrder limits s := by
  refine reached_of_changes ?_ ?_ h
  · exact {
      fifo := ⟨rfl, rfl⟩
      timely := ⟨.nil, nofun, nofun⟩
      accounted := ⟨.nil, .nil, .nil, nofun⟩
      punctual := nofun
      limited := ⟨rfl, Nat.zero_le _, Nat.zero_le _, Nat.zero_le _⟩
      fresh := ⟨each_nil, nofun⟩ }
  · intro s t hchange hs
    exact {
      fifo := fifo_kept hchange hs.fifo
      timely := timely_kept hchange hs.timely
      accounted := accounted_kept hchange hs.timely hs.accounted
      punctual := punctual_kept hchange hs.fifo hs.timely hs.accounted hs.punctual
      limited := limited_kept hchange hs.limited
      fresh := fresh_kept hchange hs.fifo hs.fresh }

theorem reached_closed {limits : EventLoopLimits} {dom : Dom} {phase : Phase} {s : Session T}
    (h : Reached limits dom phase s) : Closed phase s := by
  have hpath : ∀ q : Phase × Session T,
      Relation.ReflTransGen Step (.idle, Session.start dom limits) q → Closed q.1 q.2 := by
    intro q hreached
    induction hreached with
    | refl => exact ⟨each_nil, rfl, nofun⟩
    | tail hbefore hstep ih => exact closed_kept hstep (reached_inOrder hbefore).fifo ih
  exact hpath (phase, s) h

theorem mem_timersDue {trace : List Event} {key : TimerKey} {id : TaskId} :
    (key, id) ∈ timersDue trace ↔ (some key, id) ∈ readied trace := by
  simp only [List.mem_filterMap]
  refine exists_congr fun event => and_congr_right fun _ => ?_
  cases event <;> simp [Event.timerIsDue, Event.readied]

/-- the task of a timer that became ready did so when the timer was due -/
theorem InOrder.timer_of_readied {limits : EventLoopLimits} {s : Session T} (hs : InOrder limits s) {key : TimerKey}
    {id : TaskId} (hset : (key, id) ∈ timersSet s.trace) (hready : id ∈ (readied s.trace).map Prod.snd) :
    (key, id) ∈ timersDue s.trace := by
  have hmem := hs.accounted.timers.subset hset
  rcases List.mem_append.1 hmem with hdue | hother
  · exact hdue
  · refine absurd ?_ (hs.accounted.apart hready)
    have hid := List.mem_map_of_mem (f := Prod.snd) hother
    rwa [List.map_append] at hid

/-- an event that makes the task of a timer ready is about that timer -/
theorem InOrder.event_of_readied {limits : EventLoopLimits} {s : Session T} (hs : InOrder limits s) {event : Event}
    (hmem : event ∈ s.trace) {p : Option TimerKey × TaskId} (hready : event.readied = some p) {key : TimerKey}
    (hset : (key, p.2) ∈ timersSet s.trace) : event.timerIsDue = some (key, p.2) := by
  have hp : p ∈ readied s.trace := List.mem_filterMap.2 ⟨event, hmem, hready⟩
  have hdue := mem_timersDue.1 (hs.timer_of_readied hset (List.mem_map_of_mem hp))
  have heq : p = (some key, p.2) := List.inj_on_of_nodup_map hs.accounted.readied_nodup hp hdue rfl
  rw [heq] at hready ⊢
  cases event with
  | timerDue key' id =>
    cases hready
    rfl
  | _ => cases hready

/-- tasks of timers become ready in the order of the keys -/
theorem InOrder.readied_pairwise {limits : EventLoopLimits} {s : Session T} (hs : InOrder limits s) :
    ((readied s.trace).map Prod.snd).Pairwise fun a b =>
      ∀ key key', (key, a) ∈ timersSet s.trace → (key', b) ∈ timersSet s.trace → key < key' := by
  have hkeys : (timersDue s.trace).Pairwise fun a b => a.1 < b.1 :=
    List.pairwise_map.1 (List.pairwise_append.1 hs.timely.keys).1
  rw [List.pairwise_map, readied, List.pairwise_filterMap]
  refine List.Pairwise.imp_of_mem ?_ (List.pairwise_filterMap.1 hkeys)
  intro event event' hmem hmem' hless p hp p' hp' key key' hset hset'
  exact hless _ (hs.event_of_readied hmem hp hset) _ (hs.event_of_readied hmem' hp' hset')

theorem turnOpen_of_started {before during : List Event} {id : TaskId} {instant : Duration}
    (hduring : ∀ outcome, .turnEnded outcome ∉ during) : turnOpen (before ++ .taskStarted id instant :: during) = true := by
  induction during using List.reverseRecOn with
  | nil => rw [turnOpen, List.foldl_concat]
  | append_singleton others event ih =>
    have hopen := ih fun outcome hmem => hduring outcome (List.mem_append_left _ hmem)
    rw [← List.cons_append, ← List.append_assoc, turnOpen, List.foldl_concat]
    cases event with
    | turnEnded outcome => exact absurd (by simp) (hduring outcome)
    | _ => first | exact hopen | rfl

theorem discarding_of_mem {before during : List Event} {id : TaskId} {instant : Duration} {microtask : MicrotaskId}
    (hduring : ∀ id instant, .taskStarted id instant ∉ during) (hmem : .microtaskDiscarded microtask ∈ during) :
    discarding (before ++ .taskStarted id instant :: during) = true := by
  induction during using List.reverseRecOn with
  | nil => cases hmem
  | append_singleton others event ih =>
    have hothers : ∀ id instant, .taskStarted id instant ∉ others :=
      fun id instant hin => hduring id instant (List.mem_append_left _ hin)
    rw [← List.cons_append, ← List.append_assoc, discarding, List.foldl_concat]
    rcases List.mem_append.1 hmem with hold | hlast
    · have hdiscarding := ih hothers hold
      cases event with
      | taskStarted id instant => exact absurd (by simp) (hduring id instant)
      | _ => first | exact hdiscarding | rfl
    · rw [← List.mem_singleton.1 hlast]

/-- what is finished was queued before -/
theorem finished_queued {trace : List Event} (h : Each Announced trace) {before after : List Event}
    (htrace : trace = before ++ after) {id : MicrotaskId} (hmem : id ∈ microtasksFinished before) :
    id ∈ microtasksQueued before := by
  obtain ⟨event, hevent, hfinished⟩ := List.mem_filterMap.1 hmem
  obtain ⟨first, second, rfl⟩ := List.append_of_mem hevent
  have hannounced := h first event (second ++ after) (by rw [htrace, List.append_assoc, List.cons_append])
  have hqueued : id ∈ microtasksQueued first := by
    cases event <;> simp_all [Event.microtaskFinished, Announced]
  rw [microtasksQueued, List.filterMap_append]
  exact List.mem_append_left _ hqueued

/-- a microtask that is queued in a turn is run in it, unless the turn reports its limit -/
theorem queued_in_turn {phase : Phase} {limits : EventLoopLimits} {s : Session T} (hs : InOrder limits s)
    (hclosed : Closed phase s) {before during after : List Event} {id : TaskId} {instant : Duration} {outcome : TurnOutcome}
    (htrace : s.trace = before ++ .taskStarted id instant :: during ++ .turnEnded outcome :: after)
    (hduring : ∀ id instant, .taskStarted id instant ∉ during) {microtask : MicrotaskId}
    (hmem : .microtaskQueued microtask ∈ during) :
    .microtaskStarted microtask ∈ during ∨ (.microtaskDiscarded microtask ∈ during ∧
      ∃ executed discarded, outcome.microtasks = .resourceLimitReached executed discarded) := by
  obtain ⟨hall, hlimit⟩ := hclosed.each _ _ _ htrace
  obtain ⟨first, second, rfl⟩ := List.append_of_mem hmem
  -- the microtask is not one of an earlier turn
  have hnew : microtask ∉ microtasksQueued before := by
    have hannounced := hs.fresh.each (before ++ .taskStarted id instant :: first) (.microtaskQueued microtask)
      (second ++ .turnEnded outcome :: after) (by rw [htrace]; simp)
    intro hold
    refine hannounced ?_
    rw [microtasksQueued, List.filterMap_append]
    exact List.mem_append_left _ hold
  have hfinished : microtask ∈ microtasksFinished (before ++ .taskStarted id instant ::
      (first ++ .microtaskQueued microtask :: second)) := by
    rw [← hall]
    simp [Event.microtaskIsQueued, List.filterMap_cons]
  rw [microtasksFinished, List.filterMap_append] at hfinished
  rcases List.mem_append.1 hfinished with hold | hin
  · have hqueued : microtask ∈ microtasksQueued before :=
      finished_queued hs.fresh.each (by rw [htrace, List.append_assoc]) hold
    exact absurd hqueued hnew
  · obtain ⟨event, hevent, heq⟩ := List.mem_filterMap.1 hin
    cases event with
    | microtaskStarted microtask' =>
      cases heq
      refine .inl ((List.mem_cons.1 hevent).resolve_left nofun)
    | microtaskDiscarded microtask' =>
      cases heq
      have hdiscarded := (List.mem_cons.1 hevent).resolve_left nofun
      exact .inr ⟨hdiscarded, hlimit (discarding_of_mem hduring hdiscarded)⟩
    | _ => cases heq

/-- the task queues a microtask -/
def sampleExecute (x : Unit) (runnable : Runnable Unit) (s : Session Unit) : Unit × Session Unit :=
  match runnable with
  | .task _ _ _ => (x, s.act (.queueMicrotask ()))
  | .microtask _ _ => (x, s)

/-- a timer is set, the clock goes to its deadline, and there is a turn -/
def sampleSession : Session Unit :=
  (runOneTurn sampleExecute () (((Session.start Dom.new .default).act (.setTimeout 5 ())).act (.advanceTimeBy 5))).2.2

theorem sampleExecute_honest : Honest sampleExecute := by
  intro x runnable s
  cases runnable with
  | task id source payload => exact .single (.action (.queueMicrotask ()))
  | microtask id payload => exact .refl

theorem sampleSession_reached : Reached .default Dom.new .idle sampleSession :=
  Reached.turn sampleExecute_honest (Relation.ReflTransGen.tail (.single (.act (.action _))) (.act (.action _))) ()

end Render.Events
