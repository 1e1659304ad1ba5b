/-
Forests stored as two redundant links, over any type: a parent for each value and a list of children for each value.
Nothing here is about this repository.

- `Links.IsForest`: the two directions agree, no child list repeats a value, and every walk up the parents ends.
- `Detaches L L' S`: L' is L with the values of S taken out of their parents.
- `Inserts L L' p i l`: L' is L with the values of l put among the children of p, before index i.

Both edits keep a forest a forest (`Detaches.isForest`, `Inserts.isForest`).
-/
import Render.Core.Dfs

namespace Render.Core

structure Links (α : Type) where
  parent : α → Option α
  children : α → List α

namespace Links

variable {α : Type}

structure IsForest (L : Links α) : Prop where
  link : ∀ p c, c ∈ L.children p ↔ L.parent c = some p
  nodup : ∀ p, (L.children p).Nodup
  ends : ∀ a, Ends L.parent a

variable {L L' : Links α}

/-- a is m or above it -/
def Above (L : Links α) (a m : α) : Prop := Up L.parent m a

theorem Above.refl (a : α) : L.Above a a := Up.refl a

theorem Above.trans {a b c : α} (hab : L.Above a b) (hbc : L.Above b c) : L.Above a c := Up.trans hbc hab

theorem Above.of_parent {c p : α} (h : L.parent c = some p) : L.Above p c := Up.single h

theorem Above.parent_left {a m p : α} (h : L.Above a m) (hp : L.parent a = some p) : L.Above p m :=
  Up.trans h (Up.single hp)

/-- what is above m is m itself, or above its parent -/
theorem Above.cases {a m : α} (h : L.Above a m) : a = m ∨ ∃ p, L.parent m = some p ∧ L.Above a p := by
  rcases Up.cases h with h | h
  · exact Or.inl h.symm
  · exact Or.inr h

/-- what lies below a is a itself, or a child of a or below one -/
theorem Above.cases_child {a m : α} (h : L.Above a m) : a = m ∨ ∃ c, L.parent c = some a ∧ L.Above c m := by
  rcases Relation.ReflTransGen.cases_tail h with h | ⟨c, hmc, hca⟩
  · exact Or.inl h
  · exact Or.inr ⟨c, hca, hmc⟩

/-- two values below r are one above the other, or below two children of one value -/
theorem Above.branch {r m n : α} (hm : L.Above r m) (hn : L.Above r n) : L.Above m n ∨ L.Above n m ∨
    ∃ a c c', L.parent c = some a ∧ L.parent c' = some a ∧ c ≠ c' ∧ L.Above c m ∧ L.Above c' n := by
  induction hm with
  | refl => exact Or.inl hn
  | tail hmb hbr ih =>
    rename_i b r
    by_cases hb : L.Above b n
    · exact ih hb
    rcases hn.cases_child with rfl | ⟨c', hc', hn'⟩
    · exact Or.inr (Or.inl (Above.trans (Above.of_parent hbr) hmb))
    · exact Or.inr (Or.inr ⟨r, b, c', hbr, hc', fun he => hb (he ▸ hn'), hmb, hn'⟩)

theorem Above.comparable {a b m : α} (ha : L.Above a m) (hb : L.Above b m) : L.Above a b ∨ L.Above b a :=
  (Up.comparable ha hb).symm

namespace IsForest

theorem antisymm (h : L.IsForest) {a b : α} (hab : L.Above a b) (hba : L.Above b a) : a = b :=
  (h.ends a).antisymm hba hab

/-- a child is not above its parent -/
theorem not_above_parent (h : L.IsForest) {c p : α} (hp : L.parent c = some p) : ¬ L.Above c p :=
  (h.ends c).irrefl hp

/-- two children of one parent are not above each other -/
theorem siblings_apart (h : L.IsForest) {c c' p : α} (hc : L.parent c = some p) (hc' : L.parent c' = some p)
    (hcc' : L.Above c c') : c = c' := by
  rcases hcc'.cases with rfl | ⟨q, hq, hcq⟩
  · rfl
  · rw [hc'] at hq; cases hq; exact absurd hcq (h.not_above_parent hc)

/-- there is one child of a on the way down to m -/
theorem child_unique (h : L.IsForest) {a c c' m : α} (hc : L.parent c = some a) (hc' : L.parent c' = some a)
    (hm : L.Above c m) (hm' : L.Above c' m) : c = c' := by
  rcases hm.comparable hm' with hcc' | hcc'
  · exact h.siblings_apart hc hc' hcc'
  · exact (h.siblings_apart hc' hc hcc').symm

end IsForest

/-! ## Taking values out -/

section Detach

variable [DecidableEq α]

/-- L' is L with the values of S taken out of their parents -/
structure Detaches (L L' : Links α) (S : List α) : Prop where
  parent_in : ∀ c ∈ S, L'.parent c = none
  parent_out : ∀ c, c ∉ S → L'.parent c = L.parent c
  children : ∀ p, L'.children p = (L.children p).filter (· ∉ S)

namespace Detaches

variable {S T : List α}

theorem parent_some (h : Detaches L L' S) {c p : α} : L'.parent c = some p ↔ c ∉ S ∧ L.parent c = some p := by
  by_cases hc : c ∈ S
  · simp [h.parent_in c hc, hc]
  · simp [h.parent_out c hc, hc]

/-- **Taking values out keeps a forest.** -/
theorem isForest (h : Detaches L L' S) (hf : L.IsForest) : L'.IsForest where
  link p c := by rw [h.children, List.mem_filter, hf.link, h.parent_some]; simp [and_comm]
  nodup p := by rw [h.children]; exact (hf.nodup p).filter _
  ends a := Ends.mono (fun _ _ hab => (h.parent_some.1 hab).2) (hf.ends a)

theorem above (h : Detaches L L' S) {a m : α} (ha : L'.Above a m) : L.Above a m :=
  Up.mono (fun _ _ hxy => (h.parent_some.1 hxy).2) ha

theorem nil : Detaches L L [] where
  parent_in := by simp
  parent_out := by simp
  children := by simp

/-- taking the same values out again changes nothing -/
theorem twice {L'' : Links α} (h : Detaches L L' S) (h' : Detaches L' L'' S) : Detaches L L'' S where
  parent_in := h'.parent_in
  parent_out c hc := by rw [h'.parent_out c hc, h.parent_out c hc]
  children p := by rw [h'.children, h.children, List.filter_filter]; simp

theorem append {L'' : Links α} (h : Detaches L L' S) (h' : Detaches L' L'' T) : Detaches L L'' (S ++ T) where
  parent_in c hc := by
    by_cases hT : c ∈ T
    · exact h'.parent_in c hT
    · rw [h'.parent_out c hT, h.parent_in c ((List.mem_append.1 hc).resolve_right hT)]
  parent_out c hc := by
    rw [List.mem_append, not_or] at hc
    rw [h'.parent_out c hc.2, h.parent_out c hc.1]
  children p := by
    rw [h'.children, h.children, List.filter_filter]
    refine List.filter_congr fun c _ => ?_
    simp [Bool.and_comm]

end Detaches

end Detach

/-! ## Putting values in -/

/-- L' is L with the values of l put among the children of p, before index i -/
structure Inserts (L L' : Links α) (p : α) (i : ℕ) (l : List α) : Prop where
  parent_in : ∀ c ∈ l, L'.parent c = some p
  parent_out : ∀ c, c ∉ l → L'.parent c = L.parent c
  children_at : L'.children p = (L.children p).take i ++ l ++ (L.children p).drop i
  children_out : ∀ q, q ≠ p → L'.children q = L.children q

namespace Inserts

variable {p : α} {i : ℕ} {l : List α}

theorem nil : Inserts L L p i [] where
  parent_in := by simp
  parent_out := by simp
  children_at := by simp
  children_out := by simp

/-- one value put in, then the others right after it -/
theorem cons {L'' : Links α} {c : α} (h : Inserts L L' p i [c]) (h' : Inserts L' L'' p (i + 1) l) (hc : c ∉ l)
    (hi : i ≤ (L.children p).length) : Inserts L L'' p i (c :: l) where
  parent_in x hx := by
    rcases List.mem_cons.1 hx with rfl | hx
    · rw [h'.parent_out x hc]; exact h.parent_in x List.mem_cons_self
    · exact h'.parent_in x hx
  parent_out x hx := by
    rw [List.mem_cons, not_or] at hx
    rw [h'.parent_out x hx.2, h.parent_out x (by simpa using hx.1)]
  children_at := by
    have hlen : ((L.children p).take i ++ [c]).length = i + 1 := by simp [hi]
    rw [h'.children_at, h.children_at, ← hlen, List.take_left, List.drop_left]
    simp
  children_out q hq := by rw [h'.children_out q hq, h.children_out q hq]

/-- a value with an old parent keeps it -/
theorem parent_old (h : Inserts L L' p i l) (hl : ∀ c ∈ l, L.parent c = none) {c q : α} (hc : L.parent c = some q) :
    L'.parent c = some q := by
  rw [h.parent_out c fun hcl => by rw [hl c hcl] at hc; cases hc]; exact hc

/-- **Putting values in keeps a forest**, when they have no parent yet and p is not below them. -/
theorem isForest (h : Inserts L L' p i l) (hf : L.IsForest) (hnd : l.Nodup) (hl : ∀ c ∈ l, L.parent c = none)
    (hp : ∀ c ∈ l, ¬ L.Above c p) : L'.IsForest where
  link q c := by
    by_cases hq : q = p
    · subst hq
      have hmem : c ∈ L'.children q ↔ c ∈ l ∨ c ∈ L.children q := by
        rw [h.children_at, List.mem_append, List.mem_append, or_right_comm, ← List.mem_append, List.take_append_drop,
          or_comm]
      rw [hmem, hf.link]
      by_cases hc : c ∈ l
      · simp [hc, h.parent_in c hc]
      · simp [hc, h.parent_out c hc]
    · rw [h.children_out q hq, hf.link]
      by_cases hc : c ∈ l
      · simp [h.parent_in c hc, hl c hc, Ne.symm hq]
      · rw [h.parent_out c hc]
  nodup q := by
    by_cases hq : q = p
    · subst hq
      have hperm : List.Perm (L'.children q) (l ++ L.children q) := by
        rw [h.children_at]
        calc (L.children q).take i ++ l ++ (L.children q).drop i
            _ |>.Perm (l ++ (L.children q).take i ++ (L.children q).drop i) := List.perm_append_comm.append_right _
            _ = l ++ L.children q := by rw [List.append_assoc, List.take_append_drop]
      refine hperm.nodup_iff.2 (List.nodup_append.2 ⟨hnd, hf.nodup q, fun c hc c' hc' hcc' => ?_⟩)
      have := (hf.link q c').1 hc'
      rw [← hcc', hl c hc] at this
      cases this
    · rw [h.children_out q hq]; exact hf.nodup q
  ends a := by
    -- from p the new walk is the old one, since it never meets an inserted value
    have old : ∀ m, Ends L.parent m → (∀ c ∈ l, ¬ L.Above c m) → Ends L'.parent m := by
      intro m hm
      induction hm with
      | stop hn =>
        rename_i m
        intro hc
        exact Ends.stop (by rw [h.parent_out m fun hm => hc m hm (Above.refl m)]; exact hn)
      | step hn _ ih =>
        rename_i m b _
        intro hc
        refine Ends.step (by rw [h.parent_out m fun hm => hc m hm (Above.refl m)]; exact hn) (ih fun c hcl hcb => ?_)
        exact hc c hcl (Above.trans hcb (Above.of_parent hn))
    have hpe := old p (hf.ends p) hp
    induction hf.ends a with
    | stop hn =>
      rename_i a
      by_cases ha : a ∈ l
      · exact Ends.step (h.parent_in a ha) hpe
      · exact Ends.stop (by rw [h.parent_out a ha]; exact hn)
    | step hn _ ih =>
      rename_i a b _
      exact Ends.step (h.parent_old hl hn) ih

end Inserts

end Links

end Render.Core
