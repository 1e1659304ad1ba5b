/-
What the rendering decisions of a run account for.

A decision leaves the loop at a revision (`renderingRevision`), and the next one starts there: the decisions of a run are a
chain of intervals of revisions (`Chain`). A batch holds every record of its interval. So a record that was made in the run
belongs to one decision (`decisions_account`), as long as the revisions go up: they stop at `u64::MAX`, and from then on a
record can be missed (`decision_missed`).
-/
import Render.Events.Changes

namespace Render.Events

open Render.Core

variable {T : Type}

/-! ## Decisions -/

def Event.decision : Event → Option RenderingDecision
  | .turnEnded outcome => some outcome.decision
  | _ => none

/-- the decisions that were taken, oldest first -/
abbrev decisions (trace : List Event) : List RenderingDecision := trace.filterMap Event.decision

/-- the decision brings the record to the screen -/
def RenderingDecision.Accounts (record : MutationRecord) : RenderingDecision → Prop
  | .noChange => False
  | .incremental batch => record ∈ batch.records
  | .fullRefresh fromRevision toRevision _ => fromRevision < record.revision ∧ record.revision ≤ toRevision

/-- the records between two revisions -/
def between (recorded : List MutationRecord) (first last : DomRevision) : List MutationRecord :=
  recorded.filter fun record => first < record.revision ∧ record.revision ≤ last

/-- decisions that lead from one revision to another, each from where the one before it ended -/
inductive Chain (recorded : List MutationRecord) (first : DomRevision) : List RenderingDecision → DomRevision → Prop
  | start : Chain recorded first [] first
  | noChange {last : DomRevision} {ds : List RenderingDecision} (h : Chain recorded first ds last) :
      Chain recorded first (ds ++ [.noChange]) last
  | incremental {last : DomRevision} {ds : List RenderingDecision} (h : Chain recorded first ds last)
      (next : DomRevision) (hle : last ≤ next) :
      Chain recorded first (ds ++ [.incremental ⟨last, next, between recorded last next⟩]) next
  | fullRefresh {last : DomRevision} {ds : List RenderingDecision} (h : Chain recorded first ds last)
      (next : DomRevision) (hle : last ≤ next) (cause : MutationHistoryError) :
      Chain recorded first (ds ++ [.fullRefresh last next cause]) next

theorem mem_between {recorded : List MutationRecord} {first last : DomRevision} {record : MutationRecord} :
    record ∈ between recorded first last ↔ record ∈ recorded ∧ first < record.revision ∧ record.revision ≤ last := by
  rw [between, List.mem_filter, decide_eq_true_eq]

namespace Chain

variable {recorded : List MutationRecord} {first last : DomRevision} {ds : List RenderingDecision}

/-- records under later revisions are in no batch of the chain -/
theorem append (h : Chain recorded first ds last) {more : List MutationRecord}
    (hmore : ∀ record ∈ more, last < record.revision) : Chain (recorded ++ more) first ds last := by
  induction h with
  | start => exact .start
  | noChange _ ih => exact .noChange (ih hmore)
  | @incremental last _ hchain next hle ih =>
    have hnone : between more last next = [] := by
      refine List.filter_eq_nil_iff.2 ?_
      intro record hmem hin
      rw [decide_eq_true_eq] at hin
      exact absurd hin.2 (Nat.not_le.2 (hmore record hmem))
    have hsame : between recorded last next = between (recorded ++ more) last next := by
      rw [between, between, List.filter_append]
      exact ((congrArg _ hnone).trans (List.append_nil _)).symm
    rw [hsame]
    exact .incremental (ih fun record hmem => hle.trans_lt (hmore record hmem)) next hle
  | fullRefresh _ next hle cause ih =>
    exact .fullRefresh (ih fun record hmem => hle.trans_lt (hmore record hmem)) next hle cause

/-- nothing beyond the end of the chain is accounted for -/
theorem not_accounts (h : Chain recorded first ds last) {record : MutationRecord} (hbeyond : last < record.revision) :
    ∀ d ∈ ds, ¬ d.Accounts record := by
  induction h with
  | start => nofun
  | noChange _ ih =>
    intro d hmem
    rcases List.mem_append.1 hmem with hold | hnew
    · exact ih hbeyond d hold
    · rw [List.mem_singleton.1 hnew]
      exact id
  | incremental _ next hle ih =>
    intro d hmem
    rcases List.mem_append.1 hmem with hold | hnew
    · exact ih (hle.trans_lt hbeyond) d hold
    · rw [List.mem_singleton.1 hnew]
      exact fun hin => absurd (mem_between.1 hin).2.2 (Nat.not_le.2 hbeyond)
  | fullRefresh _ next hle cause ih =>
    intro d hmem
    rcases List.mem_append.1 hmem with hold | hnew
    · exact ih (hle.trans_lt hbeyond) d hold
    · rw [List.mem_singleton.1 hnew]
      exact fun hin => absurd hin.2 (Nat.not_le.2 hbeyond)

end Chain

/-- exactly one of the decisions accounts for the record -/
def AccountedOnce (ds : List RenderingDecision) (record : MutationRecord) : Prop :=
  ∃ before d after, ds = before ++ d :: after ∧ d.Accounts record ∧ ∀ other ∈ before ++ after, ¬ other.Accounts record

theorem AccountedOnce.concat {ds : List RenderingDecision} {record : MutationRecord} (h : AccountedOnce ds record)
    {d : RenderingDecision} (hd : ¬ d.Accounts record) : AccountedOnce (ds ++ [d]) record := by
  obtain ⟨before, one, after, rfl, hone, hothers⟩ := h
  refine ⟨before, one, after ++ [d], by simp, hone, ?_⟩
  intro other hmem
  rw [← List.append_assoc] at hmem
  rcases List.mem_append.1 hmem with hold | hnew
  · exact hothers other hold
  · rw [List.mem_singleton.1 hnew]
    exact hd

theorem accountedOnce_last {ds : List RenderingDecision} {record : MutationRecord} {d : RenderingDecision}
    (hd : d.Accounts record) (hothers : ∀ other ∈ ds, ¬ other.Accounts record) : AccountedOnce (ds ++ [d]) record :=
  ⟨ds, d, [], rfl, hd, by rwa [List.append_nil]⟩

/-- a record between the ends of a chain belongs to one decision -/
theorem Chain.once {recorded : List MutationRecord} {first last : DomRevision} {ds : List RenderingDecision}
    (h : Chain recorded first ds last) {record : MutationRecord} (hmem : record ∈ recorded)
    (hfirst : first < record.revision) (hlast : record.revision ≤ last) : AccountedOnce ds record := by
  induction h with
  | start => exact absurd hfirst (Nat.not_lt.2 hlast)
  | noChange _ ih => exact (ih hlast).concat id
  | @incremental last ds hchain next hle ih =>
    rcases le_or_gt record.revision last with hbefore | hafter
    · refine (ih hbefore).concat ?_
      exact fun hin => absurd (mem_between.1 hin).2.1 (Nat.not_lt.2 hbefore)
    · exact accountedOnce_last (mem_between.2 ⟨hmem, hafter, hlast⟩) (hchain.not_accounts hafter)
  | @fullRefresh last ds hchain next hle cause ih =>
    rcases le_or_gt record.revision last with hbefore | hafter
    · refine (ih hbefore).concat ?_
      exact fun hin => absurd hin.1 (Nat.not_lt.2 hbefore)
    · exact accountedOnce_last ⟨hafter, hlast⟩ (hchain.not_accounts hafter)

theorem Chain.batch {recorded : List MutationRecord} {first last : DomRevision} {ds : List RenderingDecision}
    (h : Chain recorded first ds last) {batch : MutationBatch} (hmem : .incremental batch ∈ ds) :
    batch.records = between recorded batch.fromRevision batch.toRevision := by
  induction h with
  | start => cases hmem
  | noChange _ ih =>
    rcases List.mem_append.1 hmem with hold | hnew
    · exact ih hold
    · cases List.mem_singleton.1 hnew
  | incremental _ next hle ih =>
    rcases List.mem_append.1 hmem with hold | hnew
    · exact ih hold
    · cases List.mem_singleton.1 hnew
      rfl
  | fullRefresh _ next hle cause ih =>
    rcases List.mem_append.1 hmem with hold | hnew
    · exact ih hold
    · cases List.mem_singleton.1 hnew

/-! ## Runs -/

/-- the decisions of a session that began with `start` -/
structure Decided (start : Dom) (s : Session T) : Prop where
  chain : Chain s.dom.history.recorded start.mutationRevision (decisions s.trace) s.loop.renderingRevision
  cursor : s.loop.renderingRevision ≤ s.dom.mutationRevision

theorem Decided.of_same {start : Dom} {s t : Session T} (hs : Decided start s) (hdom : t.dom = s.dom)
    (hrevision : t.loop.renderingRevision = s.loop.renderingRevision) (hdecisions : decisions t.trace = decisions s.trace) :
    Decided start t := by
  obtain ⟨hchain, hcursor⟩ := hs
  refine ⟨?_, ?_⟩
  · rw [hdom, hrevision, hdecisions]
    exact hchain
  · rw [hdom, hrevision]
    exact hcursor

/-- what the decision of a moment is, and where it leaves the loop -/
theorem renderingDecision_cases {s : Session T} (hjournal : s.dom.JournalInv)
    (hcursor : s.loop.renderingRevision ≤ s.dom.mutationRevision) :
    (s.loop.renderingDecision s.dom = (.noChange, s.loop) ∧
      ∀ record ∈ s.dom.history.recorded, record.revision ≤ s.loop.renderingRevision) ∨
    (∃ d, s.loop.renderingDecision s.dom = (d, { s.loop with renderingRevision := s.dom.mutationRevision }) ∧
      (d = .incremental ⟨s.loop.renderingRevision, s.dom.mutationRevision,
          between s.dom.history.recorded s.loop.renderingRevision s.dom.mutationRevision⟩ ∨
        ∃ cause, d = .fullRefresh s.loop.renderingRevision s.dom.mutationRevision cause)) := by
  have hbounded : ∀ record ∈ s.dom.history.recorded, record.revision ≤ s.dom.mutationRevision := hjournal.1.bounded
  have hanswer := mutationsSince_eq hcursor
  rw [EventLoop.renderingDecision, hanswer]
  cases hsince : s.dom.journalState.since MutationRecord.revision s.loop.renderingRevision with
  | none => exact .inr ⟨_, rfl, .inr ⟨_, rfl⟩⟩
  | some records =>
    have hrecords : records = s.dom.history.recorded.filter fun record => s.loop.renderingRevision < record.revision :=
      hjournal.1.since_eq hsince
    cases records with
    | nil =>
      refine .inl ⟨rfl, ?_⟩
      intro record hmem
      have hnot := List.filter_eq_nil_iff.1 hrecords.symm record hmem
      rw [decide_eq_true_eq] at hnot
      exact Nat.not_lt.1 hnot
    | cons first others =>
      refine .inr ⟨_, rfl, .inl ?_⟩
      rw [hrecords, between]
      congr 2
      refine List.filter_congr ?_
      intro record hmem
      rw [decide_eq_decide]
      exact ⟨fun hafter => ⟨hafter, hbounded record hmem⟩, And.left⟩

/-- the decision that is taken now leads on from the last one, and leaves no record behind -/
theorem Decided.endTurn {start : Dom} {s : Session T} (hjournal : s.dom.JournalInv) (hs : Decided start s)
    (task : TaskId × TaskSource) (microtasks : MicrotaskCheckpoint) :
    Decided start (s.endTurn task microtasks).2 ∧
      ∀ record ∈ s.dom.history.recorded, record.revision ≤ (s.endTurn task microtasks).2.loop.renderingRevision := by
  have hbounded : ∀ record ∈ s.dom.history.recorded, record.revision ≤ s.dom.mutationRevision := hjournal.1.bounded
  have hdecisions : decisions (s.endTurn task microtasks).2.trace =
      decisions s.trace ++ [(s.loop.renderingDecision s.dom).1] := by
    rw [Session.endTurn, decisions, List.filterMap_append]
    rfl
  obtain ⟨hchain, hcursor⟩ := hs
  have hloop : (s.endTurn task microtasks).2.loop = (s.loop.renderingDecision s.dom).2 := rfl
  rcases renderingDecision_cases hjournal hcursor with ⟨heq, hnone⟩ | ⟨d, heq, hd⟩
  · rw [heq] at hdecisions hloop
    rw [hloop]
    refine ⟨⟨?_, ?_⟩, hnone⟩
    · rw [hdecisions, hloop]
      exact .noChange hchain
    · rw [hloop]
      exact hcursor
  · rw [heq] at hdecisions hloop
    rw [hloop]
    refine ⟨⟨?_, ?_⟩, hbounded⟩
    · rw [hdecisions, hloop]
      rcases hd with rfl | ⟨cause, rfl⟩
      · exact .incremental hchain _ hcursor
      · exact .fullRefresh hchain _ hcursor cause
    · rw [hloop]
      exact le_rfl

theorem decided_kept {start : Dom} {s t : Session T} (h : Change s t) (hjournal : s.dom.JournalInv)
    (hless : t.dom.mutationRevision < u64Max) (hs : Decided start s) : Decided start t := by
  cases h with
  | other now nextTaskId dom hnow hid hdom =>
    obtain ⟨hjournal', hgrew⟩ := hdom hjournal
    obtain ⟨more, hmore, hnew⟩ := hgrew.records
    refine ⟨?_, hs.cursor.trans hgrew.revision⟩
    simp only [hmore]
    refine hs.chain.append ?_
    intro record hmem
    have hbounded : record.revision ≤ dom.mutationRevision := by
      refine hjournal'.1.bounded record ?_
      rw [Dom.journalState, hmore]
      exact List.mem_append_right _ hmem
    have hbelow : record.revision < u64Max := hbounded.trans_lt hless
    exact hs.cursor.trans_lt ((hnew record hmem).resolve_right hbelow.ne)
  | taskQueued source payload hroom => exact hs.of_same rfl rfl (by simp [Event.decision])
  | microtaskQueued payload hroom => exact hs.of_same rfl rfl (by simp [Event.decision])
  | timerSet deadline payload hahead hroom htimers => exact hs.of_same rfl rfl (by simp [Event.decision])
  | timersCleared predicate => exact hs.of_same rfl rfl (by simp [Session.act, Event.decision, Function.comp_def])
  | timersDue due rest hsplit hdue => exact hs.of_same rfl rfl (by simp [Event.decision, Function.comp_def])
  | taskStarted task rest hready => exact hs.of_same rfl rfl (by simp [Session.startTask, Event.decision])
  | microtaskStarted microtask rest hqueue => exact hs.of_same rfl rfl (by simp [Session.startMicrotask, Event.decision])
  | microtasksDiscarded =>
    exact hs.of_same rfl rfl (by simp [Session.discardMicrotasks, Event.decision, Function.comp_def])
  | turnEnded task microtasks => exact (hs.endTurn hjournal task microtasks).1

/-- the DOM of a session goes on from where it began -/
structure Grown (start : Dom) (s : Session T) : Prop where
  journal : s.dom.JournalInv
  grew : start.Grew s.dom
  decided : s.dom.mutationRevision < u64Max → Decided start s

theorem grown_kept {start : Dom} {s t : Session T} (h : Change s t) (hs : Grown start s) : Grown start t := by
  have hdom : t.dom.JournalInv ∧ s.dom.Grew t.dom := by
    cases h with
    | other now nextTaskId dom hnow hid hdom => exact hdom hs.journal
    | _ => exact dom_same hs.journal
  refine ⟨hdom.1, hs.grew.trans hdom.2, ?_⟩
  intro hless
  exact decided_kept h hs.journal hless (hs.decided (hdom.2.revision.trans_lt hless))

theorem reached_grown {limits : EventLoopLimits} {start : Dom} (hstart : Reachable start) {phase : Phase} {s : Session T}
    (h : Reached limits start phase s) : Grown start s := by
  have hjournal := journalInv_reachable hstart
  refine reached_of_changes ?_ (fun _ _ => grown_kept) h
  exact ⟨hjournal, .refl hjournal.2, fun _ => ⟨.start, le_rfl⟩⟩

/-- **Rendering decisions.** In every session that is reached before the revisions are used up, a record that was made in it
is accounted for by exactly one decision if it is not after the last one, and by none if it is; a batch holds exactly the
records of its interval, in order; and a decision that is taken now leaves no record behind. -/
theorem decisions_account {limits : EventLoopLimits} {start : Dom} (hstart : Reachable start) {phase : Phase}
    {s : Session T} (h : Reached limits start phase s) (hless : s.dom.mutationRevision < u64Max) :
    (∃ made, s.dom.history.recorded = start.history.recorded ++ made ∧ ∀ record ∈ made,
      if record.revision ≤ s.loop.renderingRevision then AccountedOnce (decisions s.trace) record
      else ∀ d ∈ decisions s.trace, ¬ d.Accounts record) ∧
    (∀ batch, .incremental batch ∈ decisions s.trace →
      batch.records = between s.dom.history.recorded batch.fromRevision batch.toRevision) ∧
    ∀ task microtasks, ∀ record ∈ s.dom.history.recorded,
      record.revision ≤ (s.endTurn task microtasks).2.loop.renderingRevision := by
  obtain ⟨hjournal, hgrew, hdecided⟩ := reached_grown hstart h
  have hs := hdecided hless
  obtain ⟨made, hmade, hnew⟩ := hgrew.records
  refine ⟨⟨made, hmade, ?_⟩, fun batch hmem => hs.chain.batch hmem, ?_⟩
  · intro record hmem
    have hrecorded : record ∈ s.dom.history.recorded := by
      rw [hmade]
      exact List.mem_append_right _ hmem
    have hbelow : record.revision < u64Max := (hjournal.1.bounded record hrecorded).trans_lt hless
    have hafter := (hnew record hmem).resolve_right hbelow.ne
    split_ifs with hlast
    · exact hs.chain.once hrecorded hafter hlast
    · exact hs.chain.not_accounts (Nat.not_le.1 hlast)
  · exact fun task microtasks => (hs.endTurn hjournal task microtasks).2

theorem acts_runAll {ops : List Op} {dom : Dom} : ∀ {s : Session T}, runAll ops s.dom = some dom →
    Relation.ReflTransGen Acts s { s with dom } := by
  induction ops with
  | nil =>
    intro s hrun
    obtain rfl := Option.some.inj hrun
    exact .refl
  | cons op ops ih =>
    intro s hrun
    obtain ⟨⟨result, next⟩, hop, hrest⟩ := Option.bind_eq_some_iff.1 hrun
    exact .head (.mutate op result next hop) (ih (s := { s with dom := next }) hrest)

/-- a task that does nothing -/
def idleExecute (x : Unit) (_ : Runnable Unit) (s : Session Unit) : Unit × Session Unit := (x, s)

theorem idleExecute_honest : Honest idleExecute := fun _ _ _ => .refl

/-- a task is queued, and there is a turn -/
def idleTurn (s : Session Unit) : Session Unit := (runOneTurn idleExecute () (s.act (.queueTask .domManipulation ()))).2.2

theorem Reached.idleTurn {limits : EventLoopLimits} {dom : Dom} {s : Session Unit} (h : Reached limits dom .idle s) :
    Reached limits dom .idle (idleTurn s) :=
  Reached.turn idleExecute_honest (h.tail (.act (.action _))) ()

/-- a node is put into another, which makes one record -/
def sampleMutations : List Op := [.createElement "a", .createElement "b", .appendChild 1 2]

/-- the loop begins with an empty DOM, the DOM becomes this one, and there is a turn -/
def turnAfter (dom : Dom) : Session Unit := idleTurn { Session.start Dom.new .default with dom }

theorem turnAfter_reached {ops : List Op} {dom : Dom} (hrun : runAll ops Dom.new = some dom) :
    Reached .default Dom.new .idle (turnAfter dom) :=
  Reached.idleTurn (acts_steps (acts_runAll (s := Session.start Dom.new .default) hrun))

/-- how many records the batches of the decisions have -/
def batchSizes (trace : List Event) : List (Option ℕ) :=
  (decisions trace).map fun
    | .incremental batch => some batch.records.length
    | _ => none

theorem decisions_account_sample : ∃ s : Session Unit, batchSizes s.trace = [some 1] ∧
    ∀ batch, .incremental batch ∈ decisions s.trace →
      batch.records = between s.dom.history.recorded batch.fromRevision batch.toRevision := by
  obtain ⟨dom, hdom⟩ : ∃ dom, runAll sampleMutations Dom.new = some dom := Option.isSome_iff_exists.1 (by decide)
  have hsizes : (runAll sampleMutations Dom.new).map (fun dom => batchSizes (turnAfter dom).trace) = some [some 1] := by
    decide
  have hless : (runAll sampleMutations Dom.new).map (fun dom => decide ((turnAfter dom).dom.mutationRevision < u64Max)) =
      some true := by decide
  rw [hdom] at hsizes hless
  exact ⟨turnAfter dom, Option.some.inj hsizes,
    (decisions_account .new (turnAfter_reached hdom) (of_decide_eq_true (Option.some.inj hless))).2.1⟩

/-! ## Revisions that are used up -/

/-- a DOM with one empty Text node, where nothing follows the mutations -/
structure Bare (d : Dom) : Prop where
  nodes : d.nodes = [⟨0, none, [], .document, 0⟩, ⟨1, none, [], .text "", 0⟩]
  ranges : d.ranges = []
  focusedArea : d.focusedArea = none

/-- the empty data of the Text node is replaced by nothing -/
def touch : Op := .replaceData 1 0 0 ""

theorem touch_run {d : Dom} (h : Bare d) : touch.run d = some (.ok (), d.pushMutations [.characterData 1]) := by
  obtain ⟨nodes, document, revision, journal, capacity, oldest, history, focused, types, ranges, selections, named, images,
    roots⟩ := d
  obtain ⟨rfl, rfl, rfl⟩ := h
  rfl

theorem Bare.touched {d : Dom} (h : Bare d) : Bare (d.pushMutations [.characterData 1]) := by
  have hlog := Dom.logOnly_pushMutations d [.characterData 1]
  exact ⟨hlog.nodes.trans h.nodes, hlog.ranges.trans h.ranges, (Dom.focusedArea_pushMutations d _).trans h.focusedArea⟩

/-- the revisions can be used up -/
theorem saturated_reachable : ∃ d, Reachable d ∧ Bare d ∧ d.mutationRevision = u64Max := by
  have hall : ∀ n ≤ u64Max, ∃ d, Reachable d ∧ Bare d ∧ d.mutationRevision = n := by
    intro n
    induction n with
    | zero =>
      intro _
      obtain ⟨d, hd⟩ : ∃ d, runAll [.createText ""] Dom.new = some d := Option.isSome_iff_exists.1 (by decide)
      refine ⟨d, Reach.new.runAll hd, ?_⟩
      obtain rfl := Option.some.inj hd
      exact ⟨⟨rfl, rfl, rfl⟩, rfl⟩
    | succ n ih =>
      intro hn
      obtain ⟨d, hd, hbare, hrevision⟩ := ih (Nat.le_of_succ_le hn)
      refine ⟨d.pushMutations [.characterData 1], hd.step trivial (touch_run hbare), hbare.touched, ?_⟩
      rw [(Dom.pushMutations_grows d _).1, hrevision, min_eq_left hn]
  exact hall u64Max le_rfl

/-- a decision from the last revision on accounts for no record under it -/
theorem saturated_missed {s : Session T} (hjournal : s.dom.JournalInv) (hcursor : s.loop.renderingRevision = u64Max)
    (hrevision : s.dom.mutationRevision = u64Max) (kind : MutationKind) :
    ¬ (s.loop.renderingDecision s.dom).1.Accounts ⟨u64Max, kind⟩ := by
  rcases renderingDecision_cases hjournal (hcursor.trans hrevision.symm).le with ⟨heq, _⟩ | ⟨d, heq, hd⟩
  · rw [heq]
    exact id
  · rw [heq, hcursor, hrevision] at *
    rcases hd with rfl | ⟨cause, rfl⟩
    · exact fun hin => absurd (mem_between.1 hin).2.1 (lt_irrefl _)
    · exact fun hin => absurd hin.1 (lt_irrefl _)

/-- a loop that begins when the revisions are used up: a record is made, a turn is run, and its decision is that nothing
changed -/
theorem decision_missed : ∃ (start : Dom) (s : Session Unit) (record : MutationRecord), Reachable start ∧
    Reached .default start .idle s ∧ s.dom.history.recorded = start.history.recorded ++ [record] ∧
    decisions s.trace = [] ∧ (idleTurn s).dom = s.dom ∧ ∃ d, decisions (idleTurn s).trace = [d] ∧ ¬ d.Accounts record := by
  obtain ⟨start, hstart, hbare, hrevision⟩ := saturated_reachable
  let s : Session Unit := { Session.start start .default with dom := start.pushMutations [.characterData 1] }
  have hrun : Acts (Session.start start .default) s := .mutate touch _ _ (touch_run hbare)
  have hgrows := Dom.pushMutations_grows start [.characterData 1]
  rw [hrevision] at hgrows
  have hreached : Reachable s.dom := hstart.step trivial (touch_run hbare)
  -- the moment at which the decision is taken
  let t : Session Unit := (s.act (.queueTask .domManipulation ())).promoteDueTimers.startTask ⟨0, .domManipulation, ()⟩ []
  have hdecisions : decisions (idleTurn s).trace = [(t.loop.renderingDecision t.dom).1] := rfl
  refine ⟨start, s, ⟨u64Max, .characterData 1⟩, hstart, .single (.act hrun), hgrows.2, rfl, rfl, _, hdecisions, ?_⟩
  exact saturated_missed (s := t) (journalInv_reachable hreached) hrevision hgrows.1 _

end Render.Events
