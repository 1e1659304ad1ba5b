/-
A bounded journal of records that carry revision numbers, over any type of records. Nothing here is about this
repository.

The journal keeps the newest records and drops the oldest one at a time; `oldest` is the revision of the last record it
dropped. A reader that has seen everything up to a revision asks for what came after it (`since`), and is refused when it
is behind `oldest`. `recorded` and `dropped` are the whole history, kept only to state what a reader gets:

- `Inv.since_iff`: the reader is answered exactly when no record after its revision was ever dropped.
- `Inv.since_eq`: an answer is every record ever made after the revision, in order.
-/
import Mathlib.Tactic

namespace Render.Core

structure Journal (ρ : Type) where
  revision : ℕ
  kept : List ρ
  oldest : ℕ
  recorded : List ρ
  dropped : List ρ

namespace Journal

variable {ρ : Type} (rev : ρ → ℕ)

/-- new records are made under a revision -/
def push (j : Journal ρ) (revision : ℕ) (records : List ρ) : Journal ρ :=
  { j with revision, kept := j.kept ++ records, recorded := j.recorded ++ records }

/-- the oldest kept record is dropped -/
def drop (j : Journal ρ) : Journal ρ :=
  match j.kept with
  | [] => j
  | r :: rest => { j with kept := rest, oldest := rev r, dropped := j.dropped ++ [r] }

/-- the records after a revision, `none` when the reader is too far behind -/
def since (j : Journal ρ) (r : ℕ) : Option (List ρ) :=
  if r < j.oldest then none else some (j.kept.filter fun record => r < rev record)

structure Inv (j : Journal ρ) : Prop where
  split : j.recorded = j.dropped ++ j.kept
  sorted : j.recorded.Pairwise fun a b => rev a ≤ rev b
  bounded : ∀ record ∈ j.recorded, rev record ≤ j.revision
  oldest : j.oldest = (j.dropped.getLast?.map rev).getD 0

variable {rev} {j : Journal ρ}

theorem Inv.push (h : j.Inv rev) {revision : ℕ} {records : List ρ} (hr : ∀ record ∈ records, rev record = revision)
    (hle : j.revision ≤ revision) : (j.push revision records).Inv rev where
  split := by simp only [Journal.push]; rw [h.split, List.append_assoc]
  sorted := by
    refine List.pairwise_append.2 ⟨h.sorted, List.pairwise_of_forall_mem_list fun a ha b hb => ?_, fun a ha b hb => ?_⟩
    · rw [hr a ha, hr b hb]
    · rw [hr b hb]; exact (h.bounded a ha).trans hle
  bounded record hrec := by
    rcases List.mem_append.1 hrec with hrec | hrec
    · exact (h.bounded record hrec).trans hle
    · exact (hr record hrec).le
  oldest := h.oldest

theorem Inv.drop (h : j.Inv rev) : (j.drop rev).Inv rev := by
  unfold Journal.drop
  split
  · exact h
  · rename_i r rest hk
    exact
      { split := by rw [h.split, hk]; simp
        sorted := h.sorted
        bounded := h.bounded
        oldest := by simp }

/-- no dropped record is after the last one dropped -/
theorem Inv.dropped_le (h : j.Inv rev) {record : ρ} (hr : record ∈ j.dropped) : rev record ≤ j.oldest := by
  obtain ⟨init, last, hd⟩ : ∃ init last, j.dropped = init ++ [last] :=
    ⟨j.dropped.dropLast, j.dropped.getLast (List.ne_nil_of_mem hr), (List.dropLast_append_getLast _).symm⟩
  have ho : j.oldest = rev last := by rw [h.oldest, hd]; simp
  rw [hd] at hr
  rcases List.mem_append.1 hr with hr | hr
  · have hs := h.sorted
    rw [h.split, hd] at hs
    rw [ho]
    exact (List.pairwise_append.1 (List.pairwise_append.1 hs).1).2.2 record hr last List.mem_cons_self
  · rw [List.mem_singleton.1 hr, ho]

/-- **A reader is answered exactly when no record after its revision was ever dropped.** -/
theorem Inv.since_iff (h : j.Inv rev) (r : ℕ) : (j.since rev r).isSome ↔ ∀ record ∈ j.dropped, rev record ≤ r := by
  unfold since
  split_ifs with hr
  · simp only [Option.isSome_none, Bool.false_eq_true, false_iff, not_forall, not_le]
    rw [h.oldest] at hr
    cases hl : j.dropped.getLast? with
    | none => rw [hl] at hr; simp at hr
    | some last => rw [hl] at hr; exact ⟨last, List.mem_of_getLast? hl, hr⟩
  · simp only [Option.isSome_some, true_iff]
    exact fun record hrec => (h.dropped_le hrec).trans (Nat.le_of_not_lt hr)

/-- **An answer is every record ever made after the revision, in order.** -/
theorem Inv.since_eq (h : j.Inv rev) {r : ℕ} {records : List ρ} (hs : j.since rev r = some records) :
    records = j.recorded.filter fun record => r < rev record := by
  have hd := (h.since_iff r).1 (by rw [hs]; rfl)
  unfold since at hs
  split_ifs at hs
  obtain rfl := Option.some.inj hs
  rw [h.split, List.filter_append]
  have : (j.dropped.filter fun record => r < rev record) = [] :=
    List.filter_eq_nil_iff.2 fun record hrec => by simpa using hd record hrec
  rw [this, List.nil_append]

end Journal

end Render.Core
