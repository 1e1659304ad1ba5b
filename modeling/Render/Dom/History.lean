/-
The mutation journal of a reachable DOM: what `mutations_since` returns, compared with everything that was ever recorded.

The journal fields of a `Dom` are a `Journal` of the library (`journalState`). Recording pushes under the next revision
and drops what is over the capacity; every other write leaves the journal alone.
-/
import Render.Core.Journal
import Render.Dom.TreeRuns

namespace Render

open Render.Core Render.Core.Comp

namespace Dom

variable {d d' : Dom}

/-- the fields of the journal, with the whole history -/
def journalState (d : Dom) : Journal MutationRecord where
  revision := d.mutationRevision
  kept := d.mutationJournal
  oldest := d.oldestAvailableRevision
  recorded := d.history.recorded
  dropped := d.history.discarded

/-- the journal is kept as the library asks, and the revision fits a `u64` -/
def JournalInv (d : Dom) : Prop := d.journalState.Inv MutationRecord.revision ∧ d.mutationRevision ≤ u64Max

/-- a write outside the journal -/
def SameJournal (d d' : Dom) : Prop := d'.journalState = d.journalState

theorem JournalInv.same (h : JournalInv d) (hs : SameJournal d d') : JournalInv d' := by
  unfold JournalInv
  rw [show d'.mutationRevision = d.mutationRevision from congrArg Journal.revision hs, show d'.journalState = _ from hs]
  exact h

theorem SameJournal.trans {d e f : Dom} (h : SameJournal d e) (h' : SameJournal e f) : SameJournal d f :=
  Eq.trans (b := e.journalState) h' h

theorem sameJournal_detach (n : NodeId) : SameJournal d (d.detachWithoutRevision n) := by
  cases hp : d.parent n with
  | none => unfold detachWithoutRevision; rw [hp]; rfl
  | some p =>
    obtain ⟨ranges, h⟩ := detachWithoutRevision_eq hp
    rw [h]; rfl

theorem sameJournal_applyFocusFixup (h : d.applyFocusFixup = some d') : SameJournal d d' := by
  unfold applyFocusFixup at h
  split at h
  · obtain rfl := Option.some.inj h; rfl
  · obtain ⟨focusable, -, rfl⟩ := Option.map_eq_some_iff.1 h
    split_ifs <;> rfl

/-! ## The journal's own writes -/

/-- dropping one record is dropping it from the library's journal -/
theorem journalState_popFrontRecord : d.popFrontRecord.journalState = d.journalState.drop MutationRecord.revision := by
  unfold popFrontRecord Journal.drop
  cases hj : d.mutationJournal <;> simp [journalState, hj]

theorem mutationRevision_popFrontRecord : d.popFrontRecord.mutationRevision = d.mutationRevision := by
  unfold popFrontRecord
  cases d.mutationJournal <;> rfl

theorem JournalInv.boundJournal (h : JournalInv d) (capacity : ℕ) : JournalInv (d.boundJournal capacity) := by
  unfold Dom.boundJournal
  generalize d.mutationJournal.length - capacity = k
  induction k generalizing d with
  | zero => exact h
  | succ k ih =>
    refine ih (d := d.popFrontRecord) ⟨?_, ?_⟩
    · rw [journalState_popFrontRecord]; exact h.1.drop
    · rw [mutationRevision_popFrontRecord]; exact h.2

theorem JournalInv.pushMutations (h : JournalInv d) (mutations : List MutationKind) :
    JournalInv (d.pushMutations mutations) := by
  unfold Dom.pushMutations
  refine JournalInv.boundJournal ⟨?_, Nat.min_le_right _ _⟩ _
  refine h.1.push (fun record hr => ?_) (le_min (Nat.le_succ _) h.2)
  obtain ⟨kind, -, rfl⟩ := List.mem_map.1 hr
  rfl

end Dom

open Dom

section Journal

variable {P : Dom → Prop} (hsame : ∀ d d', SameJournal d d' → P d → P d')
  (hpush : ∀ d mutations, P d → P (d.pushMutations mutations))
  (hcapacity : ∀ d capacity, P d → P (d.setMutationJournalCapacityIn capacity))
include hsame hpush

theorem journal_records {d d' : Dom} {mutations : List MutationKind} (hd : P d)
    (hrec : d.recordMutationsIn mutations = some d') : P d' := by
  unfold Dom.recordMutationsIn at hrec
  split_ifs at hrec
  · obtain rfl := Option.some.inj hrec; exact hd
  · obtain ⟨e, he, rfl⟩ := Option.map_eq_some_iff.1 hrec
    exact hpush e mutations (hsame d e (sameJournal_applyFocusFixup he) hd)

include hcapacity

/-- what depends on the journal alone is kept by the writes outside it -/
theorem journal_writes : KeptByWrites P where
  tables d _ _ _ _ _ _ hd := hsame d _ rfl hd
  allocate d _ _ hd := hsame d _ rfl hd
  allocateElement d _ _ hd := hsame d _ rfl hd
  setNodeDocument d _ _ hd := hsame d _ rfl hd
  setDataText d _ _ hd := hsame d _ rfl hd
  modifyElement d _ _ _ hd := hsame d _ rfl hd
  adoptSubtree d _ _ _ hd h := hsame d _ (by unfold SameJournal; rw [(ownersOnly_adoptSubtree h).rest]; rfl) hd
  recordMutations _ := Keeps.awaitModify fun _ _ hd h => journal_records hsame hpush hd h
  focusedArea d _ hd := hsame d _ rfl hd
  journalCapacity := hcapacity

theorem journal_attachShadow (host : NodeId) (mode : ShadowRootMode) (delegatesFocus : Bool)
    (slotAssignment : SlotAssignmentMode) : Keeps P (attachShadow host mode delegatesFocus slotAssignment) := by
  refine Keeps.bind (Keeps.check _) fun kind => ?_
  split
  · refine Keeps.bind (Keeps.failIf _ _) fun _ => Keeps.bind (Keeps.failIf _ _) fun _ => Keeps.bind ?_ fun root => ?_
    · exact Keeps.bind Keeps.get fun _ => Keeps.bind (Keeps.modify fun d hd => hsame d _ rfl hd) fun _ => Keeps.pure _
    refine Keeps.bind Keeps.get fun _ => Keeps.bind (Keeps.modify fun d hd => hsame d _ rfl hd) fun _ => ?_
    refine Keeps.bind (Keeps.modify fun d hd => hsame d _ rfl hd) fun _ => ?_
    refine Keeps.bind (Keeps.modify fun d hd => hsame d _ rfl hd) fun _ => ?_
    exact Keeps.bind ((journal_writes hsame hpush hcapacity).recordMutations _) fun _ => Keeps.pure _
  · exact Keeps.fail _

theorem journal_kept : KeptByTree P := by
  have hwrites := journal_writes hsame hpush hcapacity
  have hdetach : ∀ d n, P d → P (d.detachWithoutRevision n) := fun d n hd => hsame d _ (sameJournal_detach n) hd
  have hmoves := hwrites.moves hdetach fun d _ _ _ hd => hsame d _ rfl hd
  exact hwrites.kept hmoves.insertBefore hmoves.removeChild (journal_attachShadow hsame hpush hcapacity)

end Journal

theorem sameJournal_graftDocument (d other : Dom) : SameJournal d (d.graftDocument other) := by
  have hfold : ∀ (l : List NodeId) (d : Dom), SameJournal d (l.foldl indexNamed d) := by
    intro l
    induction l with
    | nil => exact fun _ => rfl
    | cons n l ih => exact fun d => SameJournal.trans (e := d.indexNamed n) rfl (ih _)
  exact SameJournal.trans (e := d.graftNodes other) rfl (hfold _ _)

theorem journalInv_new : JournalInv Dom.new where
  left := ⟨rfl, List.Pairwise.nil, by simp [Dom.journalState, Dom.new], rfl⟩
  right := by decide

theorem journalInv_kept : KeptByTree JournalInv :=
  journal_kept (fun _ _ hs hd => hd.same hs) (fun _ mutations hd => hd.pushMutations mutations) fun d capacity hd =>
    JournalInv.boundJournal (d := { d with mutationJournalCapacity := capacity }) hd capacity

theorem journalInv_reachable {d : Dom} (hd : Reachable d) : JournalInv d :=
  journalInv_kept.reachable journalInv_new (fun d other hd _ => hd.same (sameJournal_graftDocument d other)) hd

/-! ## New records -/

namespace Dom

variable {start d d' : Dom}

/-- the records that come after a DOM are under later revisions, as long as there are any -/
structure Grew (start d : Dom) : Prop where
  revision : start.mutationRevision ≤ d.mutationRevision
  bound : d.mutationRevision ≤ u64Max
  records : ∃ more, d.history.recorded = start.history.recorded ++ more ∧
    ∀ record ∈ more, start.mutationRevision < record.revision ∨ record.revision = u64Max

theorem Grew.refl (h : d.mutationRevision ≤ u64Max) : Grew d d := ⟨le_rfl, h, [], (List.append_nil _).symm, nofun⟩

theorem Grew.trans {e : Dom} (h : Grew start d) (h' : Grew d e) : Grew start e := by
  obtain ⟨more, hmore, hnew⟩ := h.records
  obtain ⟨more', hmore', hnew'⟩ := h'.records
  refine ⟨h.revision.trans h'.revision, h'.bound, more ++ more', ?_, ?_⟩
  · rw [hmore', hmore, List.append_assoc]
  · intro record hmem
    rcases List.mem_append.1 hmem with hold | hlast
    · exact hnew record hold
    · exact (hnew' record hlast).imp_left h.revision.trans_lt

theorem Grew.same (h : Grew start d) (hs : SameJournal d d') : Grew start d' := by
  have hrevision : d'.mutationRevision = d.mutationRevision := congrArg Journal.revision hs
  have hrecorded : d'.history.recorded = d.history.recorded := congrArg Journal.recorded hs
  refine ⟨?_, ?_, ?_⟩
  · rw [hrevision]
    exact h.revision
  · rw [hrevision]
    exact h.bound
  · rw [hrecorded]
    exact h.records

theorem recorded_popFrontRecord : d.popFrontRecord.history.recorded = d.history.recorded := by
  unfold popFrontRecord
  cases d.mutationJournal <;> rfl

theorem boundJournal_grows (d : Dom) (capacity : ℕ) : (d.boundJournal capacity).mutationRevision = d.mutationRevision ∧
    (d.boundJournal capacity).history.recorded = d.history.recorded := by
  unfold boundJournal
  generalize d.mutationJournal.length - capacity = k
  induction k generalizing d with
  | zero => exact ⟨rfl, rfl⟩
  | succ k ih =>
    rw [Function.iterate_succ_apply]
    obtain ⟨hrevision, hrecorded⟩ := ih d.popFrontRecord
    exact ⟨hrevision.trans mutationRevision_popFrontRecord, hrecorded.trans recorded_popFrontRecord⟩

theorem focusedArea_pushMutations (d : Dom) (mutations : List MutationKind) :
    (d.pushMutations mutations).focusedArea = d.focusedArea := by
  have hpop : ∀ (k : ℕ) (e : Dom), (popFrontRecord^[k] e).focusedArea = e.focusedArea := by
    intro k
    induction k with
    | zero => exact fun _ => rfl
    | succ k ih =>
      intro e
      rw [Function.iterate_succ_apply, ih, popFrontRecord]
      cases e.mutationJournal <;> rfl
  exact hpop _ _

theorem pushMutations_grows (d : Dom) (mutations : List MutationKind) :
    (d.pushMutations mutations).mutationRevision = min (d.mutationRevision + 1) u64Max ∧
      (d.pushMutations mutations).history.recorded =
        d.history.recorded ++ mutations.map fun kind => ⟨min (d.mutationRevision + 1) u64Max, kind⟩ :=
  boundJournal_grows _ _

theorem Grew.pushMutations (h : Grew start d) (mutations : List MutationKind) : Grew start (d.pushMutations mutations) := by
  obtain ⟨hrevision, hrecorded⟩ := pushMutations_grows d mutations
  obtain ⟨more, hmore, hnew⟩ := h.records
  have hle : d.mutationRevision ≤ min (d.mutationRevision + 1) u64Max := le_min (Nat.le_succ _) h.bound
  refine ⟨?_, ?_, more ++ mutations.map fun kind => ⟨min (d.mutationRevision + 1) u64Max, kind⟩, ?_, ?_⟩
  · rw [hrevision]
    exact h.revision.trans hle
  · rw [hrevision]
    exact min_le_right _ _
  · rw [hrecorded, hmore, List.append_assoc]
  · intro record hmem
    rcases List.mem_append.1 hmem with hold | hlast
    · exact hnew record hold
    · obtain ⟨kind, _, rfl⟩ := List.mem_map.1 hlast
      rcases le_total (d.mutationRevision + 1) u64Max with hfits | hfull
      · refine .inl ?_
        rw [min_eq_left hfits]
        exact Nat.lt_succ_of_le h.revision
      · exact .inr (min_eq_right hfull)

theorem grew_kept (start : Dom) : KeptByTree (Grew start) :=
  journal_kept (fun _ _ hs hd => hd.same hs) (fun _ mutations hd => hd.pushMutations mutations) fun d capacity hd => by
    have hbound := boundJournal_grows { d with mutationJournalCapacity := capacity } capacity
    obtain ⟨more, hmore, hnew⟩ := hd.records
    exact ⟨hbound.1.symm ▸ hd.revision, hbound.1.symm ▸ hd.bound, more, hbound.2.trans hmore, hnew⟩

end Dom

/-! ## What a reader of the journal gets -/

/-- a revision that exists is answered as the library's journal answers it -/
theorem mutationsSince_eq {d : Dom} {r : DomRevision} (hr : r ≤ d.mutationRevision) :
    d.mutationsSince r =
      match d.journalState.since MutationRecord.revision r with
      | none => .error (.historyDiscarded r d.oldestAvailableRevision)
      | some records => .ok ⟨r, d.mutationRevision, records⟩ := by
  unfold Dom.mutationsSince Journal.since Dom.journalState
  dsimp only
  rw [if_neg (Nat.not_lt.2 hr)]
  split_ifs <;> rfl

/-- **`mutations_since` never answers with a gap.** For a revision that exists it answers exactly when no record after the
revision was ever discarded, and then with every record ever made after it, in order. -/
theorem mutationsSince_complete {d : Dom} (hd : Reachable d) {r : DomRevision} (hr : r ≤ d.mutationRevision) :
    ((∃ batch, d.mutationsSince r = .ok batch) ↔ ∀ record ∈ d.history.discarded, record.revision ≤ r) ∧
      ∀ batch, d.mutationsSince r = .ok batch →
        batch.records = d.history.recorded.filter fun record => r < record.revision := by
  have h := (journalInv_reachable hd).1
  rw [mutationsSince_eq hr]
  constructor
  · refine Iff.trans ?_ (h.since_iff r)
    cases d.journalState.since MutationRecord.revision r <;> simp
  · intro batch hb
    cases hs : d.journalState.since MutationRecord.revision r with
    | none => rw [hs] at hb; cases hb
    | some records =>
      rw [hs] at hb
      obtain rfl := Except.ok.inj hb
      exact h.since_eq hs

/-- a capacity of one: moving a node records two mutations under one revision and the first of them is dropped -/
def sampleJournalOps : List Op :=
  [.createElement "a", .createElement "b", .createElement "c", .appendChild 1 3, .setMutationJournalCapacity 1,
    .appendChild 2 3]

theorem mutationsSince_complete_sample : ∃ d, runAll sampleJournalOps Dom.new = some d ∧ 1 ≤ d.mutationRevision ∧
    d.mutationsSince 1 = .error (.historyDiscarded 1 2) ∧ ¬ ∀ record ∈ d.history.discarded, record.revision ≤ 1 := by
  obtain ⟨d, hd⟩ : ∃ d, runAll sampleJournalOps Dom.new = some d := Option.isSome_iff_exists.1 (by decide)
  have hrev : (runAll sampleJournalOps Dom.new).map Dom.mutationRevision = some 2 := by decide
  have hsince : (runAll sampleJournalOps Dom.new).map (fun d => d.mutationsSince 1) =
      some (.error (.historyDiscarded 1 2)) := by decide
  rw [hd] at hrev hsince
  have hr : 1 ≤ d.mutationRevision := by rw [Option.some.inj hrev]; decide
  refine ⟨d, hd, hr, Option.some.inj hsince, fun hall => ?_⟩
  obtain ⟨batch, hb⟩ := (mutationsSince_complete (Reach.new.runAll hd) hr).1.2 hall
  rw [show d.mutationsSince 1 = _ from Option.some.inj hsince] at hb
  cases hb

end Render
