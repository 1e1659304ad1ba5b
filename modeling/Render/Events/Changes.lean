/-
What a step of a session can change (`Change`), one kind of change at a time.

Every step is one change or two (`Step.changes`), so a predicate that the changes keep holds in every session that is
reached (`KeptByChanges.reached`).
-/
import Render.Events.Turns
import Render.Dom.History

namespace Render.Events

open Render.Core

variable {T : Type}

inductive Change (s : Session T) : Session T → Prop
  /-- the clock goes on, the DOM changes and records what it changes, an identifier is used up -/
  | other (now : Duration) (nextTaskId : TaskId) (dom : Dom) (hnow : s.loop.now ≤ now)
      (hid : s.loop.nextTaskId ≤ nextTaskId) (hdom : s.dom.JournalInv → dom.JournalInv ∧ s.dom.Grew dom) :
      Change s ⟨{ s.loop with now, nextTaskId }, dom, s.trace⟩
  | taskQueued (source : TaskSource) (payload : T) (hroom : s.loop.pendingTaskCount < s.loop.limits.maxPendingTasks) :
      Change s ⟨{ s.loop with
        nextTaskId := s.loop.nextTaskId + 1
        readyTasks := s.loop.readyTasks ++ [⟨s.loop.nextTaskId, source, payload⟩] }, s.dom,
        s.trace ++ [.taskQueued s.loop.nextTaskId]⟩
  | microtaskQueued (payload : T) (hroom : s.loop.microtasks.length < s.loop.limits.maxPendingMicrotasks) :
      Change s ⟨{ s.loop with
        nextMicrotaskId := s.loop.nextMicrotaskId + 1
        microtasks := s.loop.microtasks ++ [⟨s.loop.nextMicrotaskId, payload⟩] }, s.dom,
        s.trace ++ [.microtaskQueued s.loop.nextMicrotaskId]⟩
  | timerSet (deadline : Duration) (payload : T) (hahead : s.loop.now ≤ deadline)
      (hroom : s.loop.pendingTaskCount < s.loop.limits.maxPendingTasks)
      (htimers : s.loop.timers.size < s.loop.limits.maxPendingTimers) :
      Change s ⟨{ s.loop with
        nextTaskId := s.loop.nextTaskId + 1
        nextTimerId := s.loop.nextTimerId + 1
        timers := s.loop.timers.insert ⟨deadline, s.loop.nextTimerId⟩ ⟨s.loop.nextTaskId, .timer, payload⟩ }, s.dom,
        s.trace ++ [.timerSet ⟨deadline, s.loop.nextTimerId⟩ s.loop.nextTaskId]⟩
  | timersCleared (predicate : TimerKey → T → Bool) : Change s (s.act (.cancelTimers predicate))
  | timersDue (due : List (TimerKey × ScheduledTask T)) (rest : SortedMap TimerKey (ScheduledTask T))
      (hsplit : s.loop.timers.entries = due ++ rest.entries) (hdue : ∀ entry ∈ due, entry.1.deadline ≤ s.loop.now) :
      Change s ⟨{ s.loop with timers := rest, readyTasks := s.loop.readyTasks ++ due.map Prod.snd }, s.dom,
        s.trace ++ due.map fun entry => .timerDue entry.1 entry.2.id⟩
  | taskStarted (task : ScheduledTask T) (rest : List (ScheduledTask T)) (hready : s.loop.readyTasks = task :: rest) :
      Change s (s.startTask task rest)
  | microtaskStarted (microtask : ScheduledMicrotask T) (rest : List (ScheduledMicrotask T))
      (hmicrotasks : s.loop.microtasks = microtask :: rest) : Change s (s.startMicrotask microtask rest)
  | microtasksDiscarded : Change s s.discardMicrotasks
  | turnEnded (task : TaskId × TaskSource) (microtasks : MicrotaskCheckpoint) : Change s (s.endTurn task microtasks).2

/-! ## Timers that are due -/

theorem promoteLoop_cases (turns : ℕ) : ∀ (l : EventLoop T) (timerWokeUp : Bool), l.timers.size ≤ turns →
    ∃ due rest, l.timers.entries = due ++ rest.entries ∧ (∀ entry ∈ due, entry.1.deadline ≤ l.now) ∧
      (∀ entry ∈ rest.entries.head?, l.now < entry.1.deadline) ∧
      EventLoop.promoteLoop turns l timerWokeUp =
        ({ l with timers := rest, readyTasks := l.readyTasks ++ due.map Prod.snd }, timerWokeUp || !due.isEmpty) := by
  induction turns with
  | zero =>
    intro l timerWokeUp hsize
    have hempty : l.timers.entries = [] := List.length_eq_zero_iff.1 (Nat.le_zero.1 hsize)
    refine ⟨[], l.timers, rfl, by simp, by simp [hempty], ?_⟩
    simp [EventLoop.promoteLoop]
  | succ turns ih =>
    intro l timerWokeUp hsize
    rw [EventLoop.promoteLoop]
    rcases hpop : l.timers.popFirst with _ | ⟨⟨key, task⟩, others⟩
    · have hempty := SortedMap.popFirst_eq_none.1 hpop
      refine ⟨[], l.timers, rfl, by simp, by simp [hempty], ?_⟩
      simp
    · have hentries := SortedMap.popFirst_eq_some.1 hpop
      by_cases hdue : key.deadline > l.now
      · refine ⟨[], l.timers, rfl, by simp, ?_, ?_⟩
        · simpa [hentries] using hdue
        · simp [hdue]
      · have hless : others.size ≤ turns := by
          rw [SortedMap.size, hentries, List.length_cons] at hsize
          exact Nat.le_of_succ_le_succ hsize
        obtain ⟨due, rest, hsplit, hall, hhead, hrun⟩ :=
          ih { l with timers := others, readyTasks := l.readyTasks ++ [task] } true hless
        refine ⟨(key, task) :: due, rest, ?_, ?_, hhead, ?_⟩
        · rw [hentries, hsplit, List.cons_append]
        · intro entry hmem
          rcases List.mem_cons.1 hmem with rfl | hmem
          · exact Nat.not_lt.1 hdue
          · exact hall entry hmem
        · simp only [hdue, if_false, hrun]
          simp

/-- the due timers are promoted, all of them and nothing else -/
theorem promoteDueTimers_cases (s : Session T) : ∃ due rest, s.loop.timers.entries = due ++ rest.entries ∧
    (∀ entry ∈ due, entry.1.deadline ≤ s.loop.now) ∧
    s.promoteDueTimers = ⟨{ s.loop with timers := rest, readyTasks := s.loop.readyTasks ++ due.map Prod.snd }, s.dom,
      s.trace ++ due.map fun entry => .timerDue entry.1 entry.2.id⟩ := by
  obtain ⟨due, rest, hsplit, hall, hhead, hrun⟩ := promoteLoop_cases s.loop.timers.size s.loop false le_rfl
  refine ⟨due, rest, hsplit, hall, ?_⟩
  have hdue : s.due = due := by
    rw [Session.due, hsplit, List.takeWhile_append_of_pos (fun entry hmem => decide_eq_true (hall entry hmem))]
    cases hentries : rest.entries with
    | nil => simp
    | cons first others =>
      have hlater := hhead first (by rw [hentries]; rfl)
      rw [List.takeWhile_cons_of_neg (by simpa using hlater), List.append_nil]
  have hloop : s.loop.promoteDueTimers =
      { s.loop with timers := rest, readyTasks := s.loop.readyTasks ++ due.map Prod.snd } := by
    rw [EventLoop.promoteDueTimers, hrun]
    cases due with
    | nil => simp
    | cons first others => simp
  rw [Session.promoteDueTimers, hdue, hloop]

/-! ## Every step -/

theorem allocateId_ok {next id next' : ℕ} (h : EventLoop.allocateId next = .ok (id, next')) : id = next ∧ next' = next + 1 := by
  rw [EventLoop.allocateId] at h
  split_ifs at h
  cases h
  exact ⟨rfl, rfl⟩

theorem deadlineAfter_ok {l : EventLoop T} {delay deadline : Duration} (h : l.deadlineAfter delay = .ok deadline) :
    l.now ≤ deadline := by
  rw [EventLoop.deadlineAfter, addDurations] at h
  split_ifs at h
  · cases h
    exact Nat.le_add_right _ _

theorem dom_same {dom : Dom} (h : dom.JournalInv) : dom.JournalInv ∧ dom.Grew dom := ⟨h, .refl h.2⟩

theorem change_same (s : Session T) : Change s s := .other s.loop.now s.loop.nextTaskId s.dom le_rfl le_rfl dom_same

theorem act_change (s : Session T) (action : Action T) : Change s (s.act action) := by
  cases action with
  | queueTask source payload =>
    simp only [Session.act]
    rcases hqueue : s.loop.queueTask source payload with error | ⟨id, loop⟩
    · exact change_same s
    · simp only [EventLoop.queueTask, EventLoop.ensureTaskCapacity, bind_eq_ok, refuse_eq_ok] at hqueue
      obtain ⟨_, hroom, ⟨id', next⟩, hallocate, heq⟩ := hqueue
      obtain ⟨rfl, rfl⟩ := allocateId_ok hallocate
      cases heq
      exact .taskQueued source payload (Nat.not_le.1 hroom)
  | queueMicrotask payload =>
    simp only [Session.act]
    rcases hqueue : s.loop.queueMicrotask payload with error | ⟨id, loop⟩
    · exact change_same s
    · simp only [EventLoop.queueMicrotask, bind_eq_ok, refuse_eq_ok] at hqueue
      obtain ⟨_, hroom, ⟨id', next⟩, hallocate, heq⟩ := hqueue
      obtain ⟨rfl, rfl⟩ := allocateId_ok hallocate
      cases heq
      exact .microtaskQueued payload (Nat.not_le.1 hroom)
  | setTimeout delay payload =>
    simp only [Session.act, EventLoop.setTimeout]
    rcases hchecked : EventLoop.setTimeout.checked s.loop delay with error | ⟨deadline, taskId, nextTaskId⟩
    · exact change_same s
    · simp only [EventLoop.setTimeout.checked, EventLoop.ensureTaskCapacity, bind_eq_ok, refuse_eq_ok] at hchecked
      obtain ⟨_, hroom, _, htimers, deadline', hdeadline, ⟨id, next⟩, hallocate, heq⟩ := hchecked
      obtain ⟨rfl, rfl⟩ := allocateId_ok hallocate
      cases heq
      have hahead := deadlineAfter_ok hdeadline
      rcases htimer : EventLoop.allocateId s.loop.nextTimerId with error | ⟨timerId, nextTimerId⟩
      · exact .other s.loop.now _ s.dom le_rfl (Nat.le_succ _) dom_same
      · obtain ⟨rfl, rfl⟩ := allocateId_ok htimer
        exact .timerSet deadline payload hahead (Nat.not_le.1 hroom) (Nat.not_le.1 htimers)
  | cancelTimers predicate => exact .timersCleared predicate
  | advanceTimeBy duration =>
    simp only [Session.act, EventLoop.advanceTimeBy, addDurations]
    split_ifs
    · exact .other _ s.loop.nextTaskId s.dom (Nat.le_add_right _ _) le_rfl dom_same
    · exact change_same s
  | advanceTimeTo instant =>
    simp only [Session.act, EventLoop.advanceTimeTo]
    split_ifs with hback
    · exact change_same s
    · exact .other _ s.loop.nextTaskId s.dom (Nat.not_lt.1 hback) le_rfl dom_same

theorem Acts.change {s t : Session T} (h : Acts s t) : Change s t := by
  cases h with
  | action action => exact act_change s action
  | mutate op result dom hrun =>
    refine .other s.loop.now s.loop.nextTaskId dom le_rfl le_rfl fun h => ⟨?_, ?_⟩
    · exact journalInv_kept.op op s.dom result dom h hrun
    · exact (Dom.grew_kept s.dom).op op s.dom result dom (.refl h.2) hrun
  | graft other hother =>
    refine .other s.loop.now s.loop.nextTaskId _ le_rfl le_rfl fun h => ⟨?_, ?_⟩
    · exact h.same (sameJournal_graftDocument s.dom other)
    · exact (Dom.Grew.refl h.2).same (sameJournal_graftDocument s.dom other)

theorem promoteDueTimers_change (s : Session T) : Change s s.promoteDueTimers := by
  obtain ⟨due, rest, hsplit, hdue, heq⟩ := promoteDueTimers_cases s
  rw [heq]
  exact .timersDue due rest hsplit hdue

/-- **Steps.** A step makes one change, or two. -/
theorem Step.changes {phase phase' : Phase} {s t : Session T} (h : Step (phase, s) (phase', t)) :
    Relation.ReflTransGen Change s t := by
  cases h with
  | act hact => exact .single hact.change
  | idle hready => exact .single (promoteDueTimers_change s)
  | task hready => exact (Relation.ReflTransGen.single (promoteDueTimers_change s)).tail (.taskStarted _ _ hready)
  | microtask hmicrotasks => exact .single (.microtaskStarted _ _ hmicrotasks)
  | complete hmicrotasks => exact .single (.turnEnded _ _)
  | limited => exact (Relation.ReflTransGen.single .microtasksDiscarded).tail (.turnEnded _ _)

/-- what holds at the start and is kept by the changes holds in every session that is reached -/
theorem reached_of_changes {P : Session T → Prop} {limits : EventLoopLimits} {dom : Dom} (hstart : P (.start dom limits))
    (hchange : ∀ s t, Change s t → P s → P t) {phase : Phase} {s : Session T} (h : Reached limits dom phase s) : P s := by
  have hpath : ∀ s t, Relation.ReflTransGen Change s t → P s → P t := by
    intro s t hsteps hs
    induction hsteps with
    | refl => exact hs
    | tail _ hlast ih => exact hchange _ _ hlast ih
  have hreached : ∀ q, Relation.ReflTransGen Step (.idle, Session.start dom limits) q → P q.2 := by
    intro q hsteps
    induction hsteps with
    | refl => exact hstart
    | tail _ hlast ih => exact hpath _ _ hlast.changes ih
  exact hreached (phase, s) h

end Render.Events
