/-
`revert` and `revert-layer` in `select_cascaded_candidate` (`render-css/src/cascade.rs`).

A declaration that wins with one of the two keywords takes declarations out of the cascade, and what is left is cascaded
again. The source goes down the sorted list once and skips what was taken out, which is the same as cascading again
(`firstHolding_eq`, `filter_mergeSort`). It takes out the origin, or the layer at the importance, of the winner. That is all
there is below a normal winner (`Ranked.below`). Below an important one there may be more: normal declarations of its layer,
author declarations below the user's, everything below the user agent's.
-/
import Render.Css.Cascade

namespace Render.Css.Rollback

open Render.Css

/-! ## Sorting -/

section Sorting

variable {α : Type} {le : α → α → Bool} (trans : ∀ a b c, le a b → le b c → le a c) (total : ∀ a b, le a b || le b a)

include trans total

/-- a stable sort keeps the order of what a filter leaves -/
theorem filter_mergeSort (p : α → Bool) (l : List α) : (l.mergeSort le).filter p = (l.filter p).mergeSort le := by
  induction l with
  | nil => simp
  | cons a l ih =>
    obtain ⟨before, behind, hsorted, hrest, hbefore⟩ := List.mergeSort_cons trans total a l
    by_cases ha : p a = true
    · obtain ⟨before', behind', hsorted', hrest', hbefore'⟩ := List.mergeSort_cons trans total a (l.filter p)
      -- `a` stands behind the elements that are before it
      have hsplit {xs ys : List α} (hxs : ∀ b ∈ xs, !le a b) (hys : (xs ++ a :: ys).Pairwise fun b c => le b c) :
          (xs ++ ys).takeWhile (fun b => !le a b) = xs := by
        have hnone : ys.takeWhile (fun b => !le a b) = [] := by
          cases ys with
          | nil => rfl
          | cons y ys =>
            have hle := (List.pairwise_cons.1 (List.pairwise_append.1 hys).2.1).1 y List.mem_cons_self
            simp [hle]
        rw [List.takeWhile_append_of_pos hxs, hnone, List.append_nil]
      have hpairwise := (List.pairwise_mergeSort trans total (a :: l)).filter p
      rw [hsorted, List.filter_append, List.filter_cons_of_pos ha] at hpairwise ⊢
      have hpairwise' := List.pairwise_mergeSort trans total (a :: l.filter p)
      rw [hsorted'] at hpairwise'
      have hsame : before.filter p ++ behind.filter p = before' ++ behind' := by
        rw [← List.filter_append, ← hrest, ih, hrest']
      have hfront : before.filter p = before' := by
        rw [← hsplit (fun b hb => hbefore b (List.mem_of_mem_filter hb)) hpairwise, hsame, hsplit hbefore' hpairwise']
      rw [hfront] at hsame ⊢
      rw [List.append_cancel_left hsame, List.filter_cons_of_pos ha, hsorted']
    · rw [hsorted, List.filter_append, List.filter_cons_of_neg ha, ← List.filter_append, ← hrest, ih,
        List.filter_cons_of_neg ha]

end Sorting

/-! ## Cascading again -/

/-- the order of the cascade: falling priority -/
def byPriority (a b : Candidate) : Bool := !decide (a.priority.fields < b.priority.fields)

theorem byPriority_trans (a b c : Candidate) (hab : byPriority a b) (hbc : byPriority b c) : byPriority a c := by
  simp only [byPriority, Bool.not_eq_true', decide_eq_false_iff_not, not_lt] at hab hbc ⊢
  exact hbc.trans hab

theorem byPriority_total (a b : Candidate) : byPriority a b || byPriority b a := by
  simp only [byPriority, Bool.or_eq_true, Bool.not_eq_true', decide_eq_false_iff_not, not_lt]
  exact le_total _ _

/-- the declarations that stay in the cascade when one of them wins with a keyword -/
def stays (keyword : CssWideKeyword) (winner c : Candidate) : Bool :=
  match keyword with
  | .revert =>
    match winner.value.origin with
    | .userAgent => false
    | .user => c.value.origin = .userAgent
    | .author => c.value.origin ≠ .author
  | .revertLayer => ¬(c.value.origin = winner.value.origin ∧ c.layerKey = winner.layerKey)
  | _ => true

def kept (keyword : CssWideKeyword) (winner : Candidate) (candidates : List Candidate) : List Candidate :=
  candidates.filter (stays keyword winner)

theorem stays_self {keyword : CssWideKeyword} (h : keyword = .revert ∨ keyword = .revertLayer) (winner : Candidate) :
    stays keyword winner winner = false := by
  rcases h with rfl | rfl <;> simp only [stays]
  · cases winner.value.origin <;> simp
  · simp

theorem kept_length {keyword : CssWideKeyword} (h : keyword = .revert ∨ keyword = .revertLayer) {winner : Candidate}
    {candidates : List Candidate} (hmem : winner ∈ candidates) : (kept keyword winner candidates).length < candidates.length :=
  List.length_filter_lt_length_iff_exists.2 ⟨winner, hmem, by simp [stays_self h]⟩

/-- the declarations that the source does not skip -/
def unskipped (keyword : CssWideKeyword) (winner c : Candidate) : Bool :=
  match keyword with
  | .revert => c.value.origin ≠ winner.value.origin
  | .revertLayer =>
    (c.value.origin, c.value.important, c.layerKey) ≠ (winner.value.origin, winner.value.important, winner.layerKey)
  | _ => true

variable (keyword : String → Option CssWideKeyword)

/-- the winner of a list, rolled back until it is no keyword that rolls back -/
def rolledBack (candidates : List Candidate) : Option CascadedValue :=
  match _h : candidates.mergeSort byPriority with
  | [] => none
  | winner :: _ =>
    match keyword winner.value.value with
    | some .revert => rolledBack (kept .revert winner candidates)
    | some .revertLayer => rolledBack (kept .revertLayer winner candidates)
    | _ => some winner.value
termination_by candidates.length
decreasing_by
  · exact kept_length (.inl rfl) (List.mem_mergeSort.1 (_h ▸ List.mem_cons_self))
  · exact kept_length (.inr rfl) (List.mem_mergeSort.1 (_h ▸ List.mem_cons_self))

/-- the lists that a cascade comes to by rolling back -/
inductive Reached : List Candidate → List Candidate → Prop
  | refl (candidates : List Candidate) : Reached candidates candidates
  | step {candidates reduced rest : List Candidate} {winner : Candidate} {k : CssWideKeyword}
      (h : Reached candidates reduced) (hwins : reduced.mergeSort byPriority = winner :: rest)
      (hkeyword : keyword winner.value.value = some k) : Reached candidates (kept k winner reduced)

/-- what an important winner takes out is of its origin, and of its layer important too -/
def Clean (reduced : List Candidate) (winner : Candidate) : CssWideKeyword → Prop
  | .revert => ∀ c ∈ reduced, (winner.value.origin = .userAgent → c.value.origin = .userAgent) ∧
      (winner.value.origin = .user → c.value.origin ≠ .author)
  | .revertLayer => ∀ c ∈ reduced, c.value.origin = winner.value.origin → c.layerKey = winner.layerKey → c.value.important
  | _ => True

theorem Reached.trans {keyword : String → Option CssWideKeyword} {candidates reduced last : List Candidate}
    (h : Reached keyword candidates reduced) (hlast : Reached keyword reduced last) : Reached keyword candidates last := by
  induction hlast with
  | refl => exact h
  | step _ hwins hkeyword ih => exact ih.step hwins hkeyword

theorem Reached.subset {keyword : String → Option CssWideKeyword} {candidates reduced : List Candidate}
    (h : Reached keyword candidates reduced) : ∀ c ∈ reduced, c ∈ candidates := by
  induction h with
  | refl => exact fun _ => id
  | step _ _ _ ih => exact fun c hc => ih c (List.mem_of_mem_filter hc)

theorem Clean.mono {reduced rest : List Candidate} {winner : Candidate} {k : CssWideKeyword} (h : Clean reduced winner k)
    (hsub : ∀ c ∈ rest, c ∈ reduced) : Clean rest winner k := by
  cases k with
  | revert | revertLayer => exact fun c hc => h c (hsub c hc)
  | inherit | initial | unset => trivial

/-- the priority of a candidate is that of its declaration -/
structure Ranked (c : Candidate) : Prop where
  important : c.priority.important = c.value.important
  origin : c.priority.origin = originRank c.value.origin c.value.important

/-! ## Skipping -/

/-- the candidate is skipped -/
def skipped (origins : List CascadeOrigin) (layers : List (CascadeOrigin × Bool × Option GlobalLayerKey)) (c : Candidate) :
    Bool := origins.contains c.value.origin || layers.contains (c.value.origin, c.value.important, c.layerKey)

theorem firstHolding_step (c : Candidate) (rest : List Candidate) (origins : List CascadeOrigin)
    (layers : List (CascadeOrigin × Bool × Option GlobalLayerKey)) : firstHolding keyword (c :: rest) origins layers =
      if skipped origins layers c then firstHolding keyword rest origins layers
      else match keyword c.value.value with
        | some .revert => firstHolding keyword rest (c.value.origin :: origins) layers
        | some .revertLayer =>
          firstHolding keyword rest origins ((c.value.origin, c.value.important, c.layerKey) :: layers)
        | _ => some c.value := rfl

theorem skipped_nil (c : Candidate) : skipped [] [] c = false := rfl

/-- going on with the skipped declarations is cascading without them -/
theorem firstHolding_filter (candidates : List Candidate) (origins : List CascadeOrigin)
    (layers : List (CascadeOrigin × Bool × Option GlobalLayerKey)) :
    firstHolding keyword candidates origins layers =
      firstHolding keyword (candidates.filter fun c => !skipped origins layers c) [] [] := by
  induction hlength : candidates.length using Nat.strong_induction_on generalizing candidates origins layers with
  | _ n ih =>
  subst hlength
  cases candidates with
  | nil => rfl
  | cons c rest =>
    have hrest := ih rest.length (Nat.lt_succ_self _)
    rw [firstHolding_step]
    by_cases hskipped : skipped origins layers c = true
    · rw [if_pos hskipped, List.filter_cons_of_neg (by simp [hskipped])]
      exact hrest _ _ _ rfl
    · rw [if_neg hskipped, List.filter_cons_of_pos (by simp [hskipped]), firstHolding_step, skipped_nil,
        if_neg Bool.false_ne_true]
      -- what else is skipped behind `c` is skipped in the list without the skipped ones
      have hagain {origins' : List CascadeOrigin} {layers' : List (CascadeOrigin × Bool × Option GlobalLayerKey)}
          (more : List CascadeOrigin) (moreLayers : List (CascadeOrigin × Bool × Option GlobalLayerKey))
          (hmore : ∀ d, skipped origins' layers' d = (skipped more moreLayers d || skipped origins layers d)) :
          firstHolding keyword rest origins' layers' =
            firstHolding keyword (rest.filter fun d => !skipped origins layers d) more moreLayers := by
        rw [hrest rest origins' layers' rfl,
          ih _ (Nat.lt_succ_of_le (List.length_filter_le _ _)) (rest.filter _) more moreLayers rfl, List.filter_filter]
        simp only [hmore, Bool.not_or]
      split
      · exact hagain [c.value.origin] [] fun d => by simp [skipped, Bool.or_assoc]
      · exact hagain [] [(c.value.origin, c.value.important, c.layerKey)] fun d => by
          simp [skipped, Bool.or_left_comm]
      · rfl

/-- what is below the winner is cascaded without what it takes out -/
theorem firstHolding_cons (winner : Candidate) (rest : List Candidate) : firstHolding keyword (winner :: rest) [] [] =
    match keyword winner.value.value with
    | some .revert => firstHolding keyword (rest.filter (unskipped .revert winner)) [] []
    | some .revertLayer => firstHolding keyword (rest.filter (unskipped .revertLayer winner)) [] []
    | _ => some winner.value := by
  rw [firstHolding_step, skipped_nil, if_neg Bool.false_ne_true]
  split
  · rw [firstHolding_filter]
    exact congrArg (firstHolding keyword · [] []) (List.filter_congr fun d _ => by simp [skipped, unskipped])
  · rw [firstHolding_filter]
    exact congrArg (firstHolding keyword · [] []) (List.filter_congr fun d _ => by simp [skipped, unskipped])
  · rfl

/-! ## What is below a winner -/

/-- below a normal declaration there are normal ones only, of its origin or a lower one -/
theorem Ranked.below {winner c : Candidate} (hwinner : Ranked winner) (hc : Ranked c) (h : byPriority winner c)
    (hnormal : winner.value.important = false) : c.value.important = false ∧
      originRank c.value.origin false ≤ originRank winner.value.origin false := by
  simp only [byPriority, Bool.not_eq_true', decide_eq_false_iff_not, Priority.fields, List.cons_lt_cons_iff, hwinner.important,
    hwinner.origin, hc.important, hc.origin, hnormal, Bool.toNat_false, not_or, not_and] at h
  have himportant : c.value.important = false := by
    cases hvalue : c.value.important
    · rfl
    · simp [hvalue] at h
  rw [himportant] at h
  exact ⟨himportant, not_lt.1 (h.2 rfl).1⟩

/-- the source leaves the declarations that stay, below a winner that is normal or takes out what is clean -/
theorem filter_unskipped {winner : Candidate} {rest : List Candidate} {k : CssWideKeyword}
    (hk : k = .revert ∨ k = .revertLayer) (hranked : ∀ c ∈ winner :: rest, Ranked c)
    (hsorted : (winner :: rest).Pairwise fun a b => byPriority a b)
    (hclean : winner.value.important = true → Clean rest winner k) :
    rest.filter (unskipped k winner) = rest.filter (stays k winner) := by
  refine List.filter_congr fun c hc => ?_
  obtain ⟨hwinner, hrest⟩ := List.forall_mem_cons.1 hranked
  have hbelow := (hwinner.below (hrest c hc) ((List.pairwise_cons.1 hsorted).1 c hc))
  rcases hk with rfl | rfl
  · have horigin : (winner.value.origin = .userAgent → c.value.origin = .userAgent) ∧
        (winner.value.origin = .user → c.value.origin ≠ .author) := by
      cases hvalue : winner.value.important
      · have := (hbelow hvalue).2
        cases hw : winner.value.origin <;> cases hc : c.value.origin <;> simp_all [originRank]
      · exact hclean hvalue c hc
    simp only [unskipped, stays]
    cases hw : winner.value.origin <;> cases hc : c.value.origin <;> simp_all
  · have himportant : c.value.origin = winner.value.origin → c.layerKey = winner.layerKey →
        c.value.important = winner.value.important := fun horigin hlayer => by
      cases hvalue : winner.value.important
      · exact (hbelow hvalue).1
      · exact hclean hvalue c hc horigin hlayer
    simp only [unskipped, stays]
    grind

/-- the winner that the source selects is the one that cascading again gives -/
theorem select_rolledBack {candidates : List Candidate} (hranked : ∀ c ∈ candidates, Ranked c)
    (hclean : ∀ reduced winner rest k, Reached keyword candidates reduced →
      reduced.mergeSort byPriority = winner :: rest → keyword winner.value.value = some k →
      winner.value.important = true → Clean reduced winner k) :
    selectCascadedCandidate keyword candidates = rolledBack keyword candidates := by
  induction hlength : candidates.length using Nat.strong_induction_on generalizing candidates with
  | _ n ih =>
  subst hlength
  have hpairwise := List.pairwise_mergeSort byPriority_trans byPriority_total candidates
  have hmem (c : Candidate) : c ∈ candidates.mergeSort byPriority ↔ c ∈ candidates := List.mem_mergeSort
  rw [rolledBack]
  show firstHolding keyword (candidates.mergeSort byPriority) [] [] = _
  split
  · rename_i hsorted
    rw [hsorted]
    rfl
  · rename_i winner rest hsorted
    rw [hsorted] at hpairwise hmem ⊢
    have hback {k : CssWideKeyword} (hk : k = .revert ∨ k = .revertLayer) (hkeyword : keyword winner.value.value = some k) :
        firstHolding keyword (rest.filter (unskipped k winner)) [] [] = rolledBack keyword (kept k winner candidates) := by
      have hreached := @Reached.step keyword candidates _ _ _ _ (.refl candidates) hsorted hkeyword
      have hagain := @ih _ (kept_length hk ((hmem winner).1 List.mem_cons_self)) (kept k winner candidates)
        (fun c hc => hranked c (List.mem_of_mem_filter hc)) (fun _ _ _ _ h => hclean _ _ _ _ (hreached.trans h)) rfl
      have hfilter := filter_mergeSort byPriority_trans byPriority_total (stays k winner) candidates
      rw [hsorted, List.filter_cons_of_neg (by simp [stays_self hk])] at hfilter
      rw [← hagain, filter_unskipped hk (fun c hc => hranked c ((hmem c).1 hc)) hpairwise fun himportant =>
        (hclean _ _ _ _ (.refl candidates) hsorted hkeyword himportant).mono fun c hc => (hmem c).1 (List.mem_cons_of_mem _ hc),
        hfilter]
      rfl
    rw [firstHolding_cons]
    split
    · exact hback (.inl rfl) ‹_›
    · exact hback (.inr rfl) ‹_›
    · rfl

/-! ## Samples -/

theorem rolledBack_sorted {winner : Candidate} {rest candidates : List Candidate}
    (h : candidates.mergeSort byPriority = winner :: rest) : rolledBack keyword candidates =
      match keyword winner.value.value with
      | some .revert => rolledBack keyword (kept .revert winner candidates)
      | some .revertLayer => rolledBack keyword (kept .revertLayer winner candidates)
      | _ => some winner.value := by
  rw [rolledBack]
  split
  · rename_i hnil
    rw [h] at hnil
    cases hnil
  · rename_i other later hsorted
    rw [h] at hsorted
    cases hsorted
    rfl

def rollsBack (value : String) : Option CssWideKeyword :=
  if value = "revert" then some .revert else if value = "revert-layer" then some .revertLayer else none

/-- a declaration in one of two layers -/
def declared (origin : CascadeOrigin) (important : Bool) (layer : ℕ) (value : String) : Candidate :=
  let priority : Priority := ⟨important, originRank origin important, 0, layer, ⟨0, 0, 0⟩, 0, 0⟩
  ⟨priority, ⟨value, important, origin, true, some (.anonymous layer), ⟨0, 0, 0⟩, 0, priority⟩, some (.anonymous 0 layer)⟩

theorem select_rolledBack_author :
    selectCascadedCandidate rollsBack [declared .author false 1 "revert", declared .user false 0 "red"] =
      rolledBack rollsBack [declared .author false 1 "revert", declared .user false 0 "red"] := by
  refine select_rolledBack rollsBack (by simp [declared]; exact ⟨⟨rfl, rfl⟩, ⟨rfl, rfl⟩⟩) ?_
  intro reduced winner rest k h hsorted _ himportant
  have hmem := h.subset winner (List.mem_mergeSort.1 (hsorted ▸ List.mem_cons_self))
  simp only [List.mem_cons, List.not_mem_nil, or_false] at hmem
  rcases hmem with rfl | rfl <;> cases himportant

/-- an important `revert-layer` leaves the normal declaration of its layer -/
theorem select_departs : selectCascadedCandidate rollsBack [declared .author true 1 "revert-layer",
      declared .author false 1 "red", declared .author false 0 "blue"] = some (declared .author false 1 "red").value ∧
    rolledBack rollsBack [declared .author true 1 "revert-layer",
      declared .author false 1 "red", declared .author false 0 "blue"] = some (declared .author false 0 "blue").value := by
  have hsorted : [declared .author true 1 "revert-layer", declared .author false 1 "red",
      declared .author false 0 "blue"].mergeSort byPriority = _ := List.mergeSort_of_pairwise (by decide)
  have hlast : [declared .author false 0 "blue"].mergeSort byPriority = _ := List.mergeSort_of_pairwise (by decide)
  constructor
  · show firstHolding rollsBack (List.mergeSort _ byPriority) [] [] = _
    rw [hsorted]
    decide
  · rw [rolledBack_sorted rollsBack hsorted]
    exact rolledBack_sorted rollsBack hlast

end Render.Css.Rollback
